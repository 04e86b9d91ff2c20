/-
  DotCom.Proofs.Spelling — symbols written out as text, one space between two of them.

  - `Token.takes_spelling`: the spelling of a symbol is taken off the front of a text as a whole, if a
    space or nothing follows it.
  - `Token.scans_spellings`: so the text of some symbols has these symbols.
-/

import DotCom.Proofs.Scanning

namespace DotCom

/-- How a character is written inside a string literal. -/
def escape : Char → List Char
  | '\n' => ['\\', 'n']
  | '\t' => ['\\', 't']
  | '\r' => ['\\', 'r']
  | '\x00' => ['\\', '0']
  | '\\' => ['\\', '\\']
  | '"' => ['\\', '"']
  | c => [c]

def Symbol.spelling : Symbol → String
  | .mark text | .keyword text | .ident text => text
  | .number value => toString value
  | .str contents => String.ofList ('"' :: (contents.toList.flatMap escape ++ ['"']))

namespace Token

/-- Nothing, or a space, is left of a text. -/
def Parted (rest : List Char) : Prop := rest = [] ∨ ∃ cs, rest = ' ' :: cs

/-- A text is one token wherever it stands apart from what follows. -/
def Takes (text : List Char) (s : Symbol) : Prop :=
  ∀ rest, Parted rest → ∃ c cs p k, text = c :: cs ∧ munch c (cs ++ rest) = .ok p ∧ p.rest = rest ∧
    p.kind? = some k ∧ k.symbol? (some (String.ofList text)) = some s

/-! ## Marks -/

/-- A mark starts with a character that announces no other class of tokens. -/
theorem mark_opens {c : Char} (h : c ∈ singleMarks ++ doubleMarks.map Prod.fst) :
    isBlank c = false ∧ c.isDigit = false ∧ isWordStart c = false ∧ (c == '"') = false := by
  have all : (singleMarks ++ doubleMarks.map Prod.fst).all
    (fun c => !isBlank c && !c.isDigit && !isWordStart c && !c == '"') = true := by decide
  simpa [and_assoc] using List.all_eq_true.1 all c h

theorem munch_mark {c : Char} {cs : List Char} (hc : c ∈ singleMarks ++ doubleMarks.map Prod.fst)
    (hs : c = '/' → cs.head? ≠ some '/' ∧ cs.head? ≠ some '*') : munch c cs = takeMark c cs := by
  obtain ⟨blank, digit, word, quote⟩ := mark_opens hc
  have line : (c == '/' && cs.head? == some '/') = false := by
    rw [Bool.and_eq_false_imp, beq_iff_eq]
    exact fun h => beq_eq_false_iff_ne.2 (hs h).1
  have block : (c == '/' && cs.head? == some '*') = false := by
    rw [Bool.and_eq_false_imp, beq_iff_eq]
    exact fun h => beq_eq_false_iff_ne.2 (hs h).2
  simp [munch, blank, line, block, digit, word, quote]

theorem takes_mark {m : String} (h : m ∈ marks) : Takes m.toList (.mark m) := by
  intro rest hr
  rcases List.mem_append.1 h with h | h
  · obtain ⟨⟨c, d⟩, hm, rfl⟩ := List.mem_map.1 h
    have first : c ≠ '/' := by
      have all : doubleMarks.all (·.1 != '/') = true := by decide
      simpa using List.all_eq_true.1 all _ hm
    have taken : munch c ([d] ++ rest) = .ok ⟨some .mark, 2, rest⟩ := by
      rw [munch_mark (List.mem_append_right _ (List.mem_map_of_mem hm)) fun e => absurd e first]
      exact if_pos (List.contains_iff_mem.2 hm)
    exact ⟨c, [d], _, _, String.toList_ofList, taken, rfl, rfl, by simp [Kind.symbol?]⟩
  · obtain ⟨c, hm, rfl⟩ := List.mem_map.1 h
    have alone : doubleMarks.contains (c, ' ') = false := by
      have all : singleMarks.all (fun c => !doubleMarks.contains (c, ' ')) = true := by decide
      simpa only [Bool.not_eq_true'] using List.all_eq_true.1 all c hm
    have taken : munch c ([] ++ rest) = .ok ⟨some .mark, 1, rest⟩ := by
      rw [munch_mark (List.mem_append_left _ hm)]
      · rcases hr with rfl | ⟨cs, rfl⟩
        · exact if_pos (List.contains_iff_mem.2 hm)
        · simp only [List.nil_append, takeMark, alone, List.contains_iff_mem.2 hm]
          rfl
      · rcases hr with rfl | ⟨cs, rfl⟩ <;> simp
    exact ⟨c, [], _, _, String.toList_ofList, taken, rfl, rfl, by simp [Kind.symbol?]⟩

/-! ## Words -/

theorem not_isWordStart_of_isBlank {c : Char} (h : isWordStart c) : isBlank c = false := by
  rw [Bool.eq_false_iff]
  intro hb
  simp only [isBlank, Bool.or_eq_true, beq_iff_eq] at hb
  rcases hb with (((rfl | rfl) | rfl) | rfl) | rfl <;> exact absurd h (by decide)

theorem isDigit_of_isWordStart {c : Char} (h : isWordStart c) : c.isDigit = false := by
  rw [Bool.eq_false_iff]
  intro hd
  obtain ⟨-, hd⟩ := isDigit_iff.1 hd
  rcases isWordStart_iff.1 h with ⟨h, -⟩ | ⟨h, -⟩ | rfl
  · exact absurd (Char.le_trans h hd) (by decide)
  · exact absurd (Char.le_trans h hd) (by decide)
  · exact absurd hd (by decide)

/-- A run of one class of characters ends where a space or nothing follows. -/
theorem takeWhile_parted {p : Char → Bool} {cs rest : List Char} (hp : p ' ' = false) (h : ∀ c ∈ cs, p c)
    (hr : Parted rest) :
    (cs ++ rest).takeWhile p = cs ∧ (cs ++ rest).dropWhile p = rest := by
  rw [List.takeWhile_append_of_pos h, List.dropWhile_append_of_pos h]
  rcases hr with rfl | ⟨ds, rfl⟩ <;> simp [hp]

theorem munch_wordStart {c : Char} (hc : isWordStart c) (cs : List Char) : munch c cs = .ok (takeWord c cs) := by
  have slash : (c == '/') = false := beq_eq_false_iff_ne.2 fun e => absurd (e ▸ hc) (by decide)
  simp [munch, not_isWordStart_of_isBlank hc, slash, isDigit_of_isWordStart hc, hc]

theorem munch_word {c : Char} {cs rest : List Char} (hc : isWordStart c) (hcs : ∀ d ∈ cs, isWordChar d)
    (hr : Parted rest) :
    munch c (cs ++ rest) =
      .ok ⟨some (if keywords.contains (String.ofList (c :: cs)) then .keyword else .ident),
        (c :: cs).length, rest⟩ := by
  obtain ⟨hw, hd⟩ := takeWhile_parted (by decide) hcs hr
  rw [munch_wordStart hc, takeWord, hw, hd]

theorem takes_word {word : String} {c : Char} {cs : List Char} (h : word.toList = c :: cs) (hc : IsLetter c)
    (hcs : ∀ d ∈ cs, IsLetter d ∨ IsFigure d) :
    Takes word.toList (if word ∈ keywords then .keyword word else .ident word) := by
  intro rest hr
  have same : String.ofList (c :: cs) = word := by rw [← h, String.ofList_toList]
  refine ⟨c, cs, _, _, h, munch_word (isWordStart_iff.2 hc) (fun d hd => isWordChar_iff.2 (hcs d hd)) hr, rfl, rfl, ?_⟩
  rw [h, same]
  by_cases hk : word ∈ keywords
  · simp [hk, Kind.symbol?]
  · simp [hk, Kind.symbol?]

theorem takes_keyword {w : String} (h : w ∈ keywords) : Takes w.toList (.keyword w) := by
  have word : ∃ c cs, w.toList = c :: cs ∧ isWordStart c ∧ cs.all isWordChar = true := by
    simp only [keywords, List.mem_cons, List.not_mem_nil, or_false] at h
    rcases h with rfl | rfl | rfl | rfl | rfl | rfl
    all_goals exact ⟨_, _, rfl, by decide, by decide⟩
  obtain ⟨c, cs, hw, hc, hcs⟩ := word
  have taken := takes_word hw (isWordStart_iff.1 hc) fun d hd => isWordChar_iff.1 (List.all_eq_true.1 hcs d hd)
  rwa [if_pos h] at taken

theorem takes_name {name : String} (h : IsName name) : Takes name.toList (.ident name) := by
  obtain ⟨c, cs, hn, hc, hcs, hk⟩ := h
  have taken := takes_word hn hc hcs
  rwa [if_neg hk] at taken

/-! ## Numbers -/

theorem decimal_toDigits (n : Nat) : decimal (Nat.toDigits 10 n) = n := by
  rw [decimal, ← Nat.ofDigitChars_eq_foldl, Nat.ofDigitChars_ten_toDigits]

/-- Only zero is written with a zero in front. -/
theorem toDigits_head {n : Nat} {ds : List Char} (h : Nat.toDigits 10 n = '0' :: ds) : ds = [] := by
  induction n using Nat.strongRecOn generalizing ds with
  | ind n ih =>
    by_cases small : n < 10
    · rw [Nat.toDigits_of_lt_base small] at h
      exact (List.cons.inj h).2.symm
    · rw [Nat.toDigits_of_base_le (by decide) (Nat.le_of_not_lt small)] at h
      obtain ⟨c, cs, hc⟩ := List.exists_cons_of_ne_nil (Nat.toDigits_ne_nil (n := n / 10) (b := 10))
      rw [hc, List.cons_append] at h
      obtain ⟨rfl, -⟩ := List.cons.inj h
      -- The digits in front of the last one would be a zero alone.
      have zero : n / 10 = 0 := by
        rw [← decimal_toDigits (n / 10), hc, ih (n / 10) (by omega) hc]
        rfl
      omega

theorem munch_digit {c : Char} (hc : c.isDigit) (cs : List Char) : munch c cs = takeNumber c cs := by
  have blank : isBlank c = false := by
    rw [Bool.eq_false_iff]
    intro hb
    simp only [isBlank, Bool.or_eq_true, beq_iff_eq] at hb
    rcases hb with (((rfl | rfl) | rfl) | rfl) | rfl <;> exact absurd hc (by decide)
  have slash : (c == '/') = false := beq_eq_false_iff_ne.2 fun e => absurd (e ▸ hc) (by decide)
  simp [munch, blank, slash, hc]

theorem takes_number {v : Int} (h : 0 ≤ v ∧ v ≤ maxNumber) : Takes (toString v).toList (.number v) := by
  intro rest hr
  obtain ⟨n, rfl⟩ := Int.eq_ofNat_of_zero_le h.1
  have small : ¬ maxNumber < n := by omega
  have spelled : (toString (n : Int)).toList = Nat.toDigits 10 n := Nat.toList_repr
  have digits : ∀ c ∈ Nat.toDigits 10 n, c.isDigit := fun c hc => Nat.isDigit_of_mem_toDigits (by decide) (by decide) hc
  have value := decimal_toDigits n
  have head := @toDigits_head n
  rw [spelled]
  obtain ⟨c, cs, hc⟩ := List.exists_cons_of_ne_nil (Nat.toDigits_ne_nil (n := n) (b := 10))
  rw [hc] at digits value head ⊢
  obtain ⟨first, others⟩ := List.forall_mem_cons.1 digits
  obtain ⟨taken, dropped⟩ := takeWhile_parted (by decide) others hr
  have single : (c == '0' && decide ((c :: cs).length ≠ 1)) = false := by
    rw [Bool.and_eq_false_imp, beq_iff_eq]
    rintro rfl
    rw [head rfl]
    rfl
  refine ⟨c, cs, ⟨some (.number (some n)), (c :: cs).length, rest⟩, _, rfl, ?_, rfl, rfl, rfl⟩
  rw [munch_digit first]
  simp only [takeNumber, taken, dropped, single, value, if_neg small]
  rfl

/-! ## Strings -/

theorem closeString_plain {c : Char} (hq : c ≠ '"') (hn : c ≠ '\n') (hb : c ≠ '\\') (len : Nat) (acc cs : List Char) :
    closeString len acc (c :: cs) = closeString (len + c.utf8Size) (c :: acc) cs := by
  rw [closeString]
  · exact hq
  · exact hn
  · exact fun e _ => hb e
  · exact fun _ _ e _ => hb e

theorem closeString_escape (c : Char) (len : Nat) (acc cs : List Char) :
    ∃ len', closeString len acc (escape c ++ cs) = closeString len' (c :: acc) cs := by
  unfold escape
  split
  case h_7 newline _ _ _ backslash quote =>
    exact ⟨_, closeString_plain quote newline backslash len acc cs⟩
  all_goals exact ⟨_, rfl⟩

theorem closeString_escaped (t : List Char) (len : Nat) (acc rest : List Char) :
    ∃ len', closeString len acc (t.flatMap escape ++ '"' :: rest) =
      .ok ⟨some (.str (some (String.ofList (acc.reverse ++ t)))), len', rest⟩ := by
  induction t generalizing len acc with
  | nil => exact ⟨len + 1, by simp [closeString]⟩
  | cons c t ih =>
    obtain ⟨next, hc⟩ := closeString_escape c len acc (t.flatMap escape ++ '"' :: rest)
    obtain ⟨last, ht⟩ := ih next (c :: acc)
    refine ⟨last, ?_⟩
    rw [List.flatMap_cons, List.append_assoc, hc, ht]
    simp

theorem takes_str (t : String) : Takes (Symbol.spelling (.str t)).toList (.str t) := by
  intro rest _
  obtain ⟨len, h⟩ := closeString_escaped t.toList 1 [] rest
  have whole : munch '"' (t.toList.flatMap escape ++ ['"'] ++ rest) =
      closeString 1 [] (t.toList.flatMap escape ++ '"' :: rest) := by
    rw [List.append_assoc]
    rfl
  rw [h] at whole
  exact ⟨_, _, _, _, String.toList_ofList, whole, rfl, rfl, by simp [Kind.symbol?]⟩

/-! ## Whole texts -/

theorem takes_spelling {s : Symbol} (h : Lexical s) : Takes s.spelling.toList s := by
  cases s with
  | mark m => exact takes_mark h
  | keyword w => exact takes_keyword h
  | ident n => exact takes_name h
  | number v => exact takes_number h
  | str t => exact takes_str t

theorem Takes.scans {text rest : List Char} {s : Symbol} {ss : List Symbol} (h : Takes text s) (hr : Parted rest)
    (hs : Scans rest ss) : Scans (text ++ rest) (s :: ss) := by
  obtain ⟨c, cs, p, k, rfl, hm, rfl, hk, hsym⟩ := h rest hr
  exact .token hm hk rfl hsym hs

/-- Symbols written out with a space between any two are scanned as they are. -/
theorem scans_spellings {ss : List Symbol} (h : ∀ s ∈ ss, Lexical s) :
    Scans (" ".intercalate (ss.map Symbol.spelling)).toList ss := by
  rw [String.toList_intercalate, List.map_map]
  induction ss with
  | nil => exact .nil
  | cons s ss ih =>
    obtain ⟨hs, hss⟩ := List.forall_mem_cons.1 h
    have taken := takes_spelling hs
    cases ss with
    | nil => simpa using taken.scans (.inl rfl) .nil
    | cons s' ss =>
      rw [List.map_cons, List.map_cons, List.intercalate_cons_cons, List.append_assoc]
      exact taken.scans (.inr ⟨_, rfl⟩) (.gap rfl rfl (ih hss))

end Token

end DotCom
