/-
  DotCom.Proofs.Tiling — what the scanner makes of any text, said by classes of tokens. At every place it
  reaches one piece applies: a blank, a comment, or the longest token of its class. If none does, the text
  has a misfit there.

  - `Token.Applies`, `Token.Misfits`: the pieces, and the six reasons why there is none.
  - `Token.applies_or_misfits`: every text that is left has one or the other; `Applies.munch` and
    `Misfits.munch` say that the scanner finds it.
  - `Token.Applies.longest`: no longer part of the text is in the class of a token.
  - `Token.scan_tiles`: the tokens of a text and the gaps between them cover it, from one boundary of
    characters to the next; and scanning fails exactly where nothing applies.
-/

import DotCom.Proofs.Gaps

namespace DotCom.Token

/-! ## Classes of tokens -/

/-- One character of a first class, and then any number of a second. -/
def IsRun (first next : Char → Prop) (w : List Char) : Prop := ∃ c cs, w = c :: cs ∧ first c ∧ ∀ d ∈ cs, next d

def IsWord : List Char → Prop := IsRun IsLetter fun d => IsLetter d ∨ IsFigure d

/-- Figures without a leading zero. -/
def IsNumeral (w : List Char) : Prop := w = ['0'] ∨ IsRun (fun c => IsFigure c ∧ c ≠ '0') IsFigure w

def IsMark (w : List Char) : Prop := String.ofList w ∈ marks

/-- What may follow a backslash, and what it stands for. -/
def escapes : List (Char × Char) :=
  [('n', '\n'), ('t', '\t'), ('r', '\r'), ('0', '\x00'), ('\\', '\\'), ('"', '"')]

/-- What is between the quotes of a literal, and what it denotes. -/
inductive Denotes : List Char → List Char → Prop
  | nil : Denotes [] []
  | plain {c : Char} {body contents : List Char} : c ≠ '"' → c ≠ '\n' → c ≠ '\\' → Denotes body contents →
      Denotes (c :: body) (c :: contents)
  | escaped {e c : Char} {body contents : List Char} : (e, c) ∈ escapes → Denotes body contents →
      Denotes ('\\' :: e :: body) (c :: contents)

def IsLiteral (w : List Char) : Prop := ∃ body contents, w = '"' :: (body ++ ['"']) ∧ Denotes body contents

/-- The texts of tokens of a kind. Keywords and other words are one class. -/
def Kind.Class : Kind → List Char → Prop
  | .ident | .keyword => IsWord
  | .number _ => IsNumeral
  | .mark => IsMark
  | .str _ => IsLiteral
  | .eof => fun w => w = []

/-- The longest text of a class at the front of another. -/
structure Longest (C : List Char → Prop) (taken text : List Char) : Prop where
  mem : C taken
  front : taken <+: text
  longest : ∀ w, C w → w <+: text → w.length ≤ taken.length

/-! ## Pieces and misfits -/

/-- What is taken off a text before `rest`: a gap, or a token of a kind. -/
inductive Applies : Option Kind → List Char → List Char → Prop
  | blank {b : Char} {rest : List Char} : isBlank b → Applies none [b] rest
  | line {body rest : List Char} : '\n' ∉ body → (∀ c ∈ rest.head?, c = '\n') → Applies none ('/' :: '/' :: body) rest
  | block {body rest : List Char} : ¬ ['*', '/'] <:+: body → Applies none ('/' :: '*' :: (body ++ ['*', '/'])) rest
  | word {taken rest : List Char} : Longest IsWord taken (taken ++ rest) →
      Applies (some (if String.ofList taken ∈ keywords then .keyword else .ident)) taken rest
  | number {taken rest : List Char} : Longest IsNumeral taken (taken ++ rest) → (∀ d ∈ rest.head?, ¬ IsFigure d) →
      decimal taken ≤ maxNumber → Applies (some (.number (some (decimal taken)))) taken rest
  | mark {taken rest : List Char} : Longest IsMark taken (taken ++ rest) → ¬ ['/', '/'] <+: taken ++ rest →
      ¬ ['/', '*'] <+: taken ++ rest → Applies (some .mark) taken rest
  | literal {body contents rest : List Char} : Denotes body contents →
      Applies (some (.str (some (String.ofList contents)))) ('"' :: (body ++ ['"'])) rest

/-- Why nothing can be taken off a text, and how many bytes behind its front. -/
inductive Misfits : List Char → Nat → SyntaxError → Prop
  | comment {cs : List Char} : ¬ ['*', '/'] <:+: cs → Misfits ('/' :: '*' :: cs) 0 .unclosedComment
  | zeros {d : Char} {cs : List Char} : IsFigure d → Misfits ('0' :: d :: cs) 1 .leadingZeros
  | large {taken rest : List Char} : Longest IsNumeral taken (taken ++ rest) → maxNumber < decimal taken →
      Misfits (taken ++ rest) 0 .numberTooLarge
  | unterminated {body contents rest : List Char} : Denotes body contents →
      rest = [] ∨ rest = ['\\'] ∨ rest.head? = some '\n' → Misfits ('"' :: (body ++ rest)) 0 .unterminatedString
  | escape {body contents rest : List Char} {e : Char} : Denotes body contents → (∀ c, (e, c) ∉ escapes) →
      Misfits ('"' :: (body ++ '\\' :: e :: rest)) (1 + byteLength body) (.unknownEscape e)
  | stray {c : Char} {cs : List Char} : ¬ isBlank c → ¬ IsLetter c → ¬ IsFigure c → c ≠ '"' →
      (∀ w, IsMark w → ¬ w <+: c :: cs) → Misfits (c :: cs) 0 (.invalidToken c)

/-! ## Runs -/

theorem span_eq {p : Char → Bool} {cs rest : List Char} (h : ∀ d ∈ cs, p d) (hr : ∀ d ∈ rest.head?, ¬ p d) :
    (cs ++ rest).takeWhile p = cs ∧ (cs ++ rest).dropWhile p = rest := by
  rw [List.takeWhile_append_of_pos h, List.dropWhile_append_of_pos h]
  cases rest with
  | nil => simp
  | cons d rest => simp [hr d rfl]

/-- Characters divide before the first `d`. -/
theorem exists_before (d : Char) (cs : List Char) :
    ∃ front rest, cs = front ++ rest ∧ d ∉ front ∧ (rest = [] ∨ ∃ tail, rest = d :: tail) := by
  refine ⟨cs.takeWhile (· ≠ d), cs.dropWhile (· ≠ d), List.takeWhile_append_dropWhile.symm, ?_, ?_⟩
  · intro hd
    simpa using List.all_eq_true.1 List.all_takeWhile d hd
  · have stop := List.head?_dropWhile_not (fun c : Char => decide (c ≠ d)) cs
    cases rest : cs.dropWhile (· ≠ d) with
    | nil => exact .inl rfl
    | cons c tail =>
      rw [rest] at stop
      obtain rfl : c = d := by simpa using stop
      exact .inr ⟨tail, rfl⟩

theorem longest_run {first next : Char → Prop} {p : Char → Bool} (hp : ∀ d, p d ↔ next d) {c : Char} (hc : first c)
    (cs : List Char) : Longest (IsRun first next) (c :: cs.takeWhile p) (c :: cs) where
  mem := ⟨c, _, rfl, hc, fun d hd => (hp d).1 (List.all_eq_true.1 List.all_takeWhile d hd)⟩
  front := List.cons_prefix_cons.2 ⟨rfl, List.takeWhile_prefix p⟩
  longest := by
    rintro w ⟨d, ds, rfl, -, hds⟩ hw
    obtain ⟨-, tail, rfl⟩ := List.cons_prefix_cons.1 hw
    rw [List.takeWhile_append_of_pos fun d hd => (hp d).2 (hds d hd)]
    simp

/-- A run that can be no longer is not followed by one more character of it. -/
theorem Longest.ends {C : List Char → Prop} {taken rest : List Char} {next : Char → Prop}
    (h : Longest C taken (taken ++ rest)) (grow : ∀ d, next d → C (taken ++ [d])) : ∀ d ∈ rest.head?, ¬ next d := by
  intro d hd hn
  obtain ⟨rest, rfl⟩ := List.head?_eq_some_iff.1 hd
  have le := h.longest (taken ++ [d]) (grow d hn) ⟨rest, by simp⟩
  rw [List.length_append] at le
  exact Nat.not_succ_le_self _ le

theorem IsRun.concat {first next : Char → Prop} {w : List Char} {d : Char} (h : IsRun first next w) (hd : next d) :
    IsRun first next (w ++ [d]) := by
  obtain ⟨c, cs, rfl, hc, hcs⟩ := h
  refine ⟨c, cs ++ [d], rfl, hc, fun e he => ?_⟩
  rcases List.mem_append.1 he with he | he
  · exact hcs e he
  · exact List.mem_singleton.1 he ▸ hd

/-! ## Words and numbers -/

theorem word_munch {c : Char} {cs taken rest : List Char} (h : Longest IsWord taken (taken ++ rest))
    (ht : c :: cs = taken ++ rest) :
    munch c cs = .ok ⟨some (if String.ofList taken ∈ keywords then .keyword else .ident), byteLength taken, rest⟩ := by
  have ends := h.ends fun d hd => IsRun.concat h.mem hd
  obtain ⟨c', cs', rfl, hc, hcs⟩ := h.mem
  obtain ⟨rfl, rfl⟩ : c = c' ∧ cs = cs' ++ rest := List.cons.inj ht
  have start := isWordStart_iff.2 hc
  have chars : ∀ d ∈ cs', isWordChar d := fun d hd => isWordChar_iff.2 (hcs d hd)
  obtain ⟨taken, left⟩ := span_eq chars fun d hd hw => ends d hd (isWordChar_iff.1 hw)
  have ascii : byteLength (c :: cs') = (c :: cs').length := byteLength_of_ascii fun d hd => by
    rcases List.mem_cons.1 hd with rfl | hd
    · exact utf8Size_of_isWordChar (isWordChar_of_isWordStart start)
    · exact utf8Size_of_isWordChar (chars d hd)
  simp only [munch_wordStart start, takeWord, taken, left, ascii, List.contains_iff_mem]

/-- The figures that start with `c` are all taken at once. -/
theorem takeNumber_eq {c : Char} {cs rest : List Char} (hcs : ∀ d ∈ cs, IsFigure d)
    (hr : ∀ d ∈ rest.head?, ¬ IsFigure d) :
    takeNumber c (cs ++ rest) =
      if c == '0' && (c :: cs).length ≠ 1 then .error ⟨1, .leadingZeros⟩
      else if maxNumber < decimal (c :: cs) then .error ⟨0, .numberTooLarge⟩
      else .ok ⟨some (.number (some (decimal (c :: cs)))), (c :: cs).length, rest⟩ := by
  obtain ⟨taken, left⟩ := span_eq (fun d hd => isDigit_iff.2 (hcs d hd)) fun d hd hf => hr d hd (isDigit_iff.1 hf)
  rw [takeNumber, taken, left]

theorem IsNumeral.shape {w : List Char} (h : IsNumeral w) :
    ∃ c cs, w = c :: cs ∧ IsFigure c ∧ (∀ d ∈ cs, IsFigure d) ∧ (c = '0' → cs = []) := by
  rcases h with rfl | ⟨c, cs, rfl, ⟨hc, hz⟩, hcs⟩
  · exact ⟨'0', [], rfl, isDigit_iff.1 rfl, by simp, fun _ => rfl⟩
  · exact ⟨c, cs, rfl, hc, hcs, fun e => absurd e hz⟩

theorem number_munch {c : Char} {cs taken rest : List Char} (h : IsNumeral taken) (hr : ∀ d ∈ rest.head?, ¬ IsFigure d)
    (ht : c :: cs = taken ++ rest) :
    munch c cs = if maxNumber < decimal taken then .error ⟨0, .numberTooLarge⟩
      else .ok ⟨some (.number (some (decimal taken))), byteLength taken, rest⟩ := by
  obtain ⟨c', cs', rfl, hc, hcs, hz⟩ := h.shape
  obtain ⟨rfl, rfl⟩ : c = c' ∧ cs = cs' ++ rest := List.cons.inj ht
  have single : ¬ (c == '0' && decide ((c :: cs').length ≠ 1)) = true := by
    rw [Bool.and_eq_true, beq_iff_eq, decide_eq_true_iff]
    rintro ⟨e, long⟩
    exact long (by rw [hz e]; rfl)
  have ascii : byteLength (c :: cs') = (c :: cs').length := byteLength_of_ascii fun d hd => by
    rcases List.mem_cons.1 hd with rfl | hd
    · exact utf8Size_of_isDigit (isDigit_iff.2 hc)
    · exact utf8Size_of_isDigit (isDigit_iff.2 (hcs d hd))
  rw [munch_digit (isDigit_iff.2 hc), takeNumber_eq hcs hr, if_neg single, ascii]

/-- A number that is too large is no zero, and no figure follows it. -/
theorem large_ends {taken rest : List Char} (h : Longest IsNumeral taken (taken ++ rest))
    (large : maxNumber < decimal taken) :
    ∀ d ∈ rest.head?, ¬ IsFigure d := by
  refine h.ends fun d hd => ?_
  rcases h.mem with rfl | run
  · exact absurd large (by decide)
  · exact .inr (run.concat hd)

/-! ## Marks -/

theorem isMark_iff {w : List Char} :
    IsMark w ↔ (∃ c d, w = [c, d] ∧ (c, d) ∈ doubleMarks) ∨ ∃ c, w = [c] ∧ c ∈ singleMarks := by
  have inj {u v : List Char} (h : String.ofList u = String.ofList v) : u = v := by
    simpa using congrArg String.toList h
  rw [IsMark, marks, List.mem_append, List.mem_map, List.mem_map]
  constructor
  · rintro (⟨⟨c, d⟩, hm, e⟩ | ⟨c, hm, e⟩)
    · exact .inl ⟨c, d, (inj e).symm, hm⟩
    · exact .inr ⟨c, (inj e).symm, hm⟩
  · rintro (⟨c, d, rfl, hm⟩ | ⟨c, rfl, hm⟩)
    · exact .inl ⟨(c, d), hm, rfl⟩
    · exact .inr ⟨c, hm, rfl⟩

theorem length_le_of_isMark {w : List Char} (h : IsMark w) : w.length ≤ 2 := by
  rcases isMark_iff.1 h with ⟨c, d, rfl, -⟩ | ⟨c, rfl, -⟩
  · exact Nat.le_refl 2
  · exact Nat.le_succ 1

theorem mark_munch {c : Char} {cs taken rest : List Char} (h : Longest IsMark taken (taken ++ rest))
    (line : ¬ ['/', '/'] <+: taken ++ rest) (block : ¬ ['/', '*'] <+: taken ++ rest) (ht : c :: cs = taken ++ rest) :
    munch c cs = .ok ⟨some .mark, byteLength taken, rest⟩ := by
  have slash : c = '/' → cs.head? ≠ some '/' ∧ cs.head? ≠ some '*' := by
    rw [← ht] at line block
    rintro rfl
    refine ⟨fun e => line ?_, fun e => block ?_⟩
    all_goals
      obtain ⟨ds, rfl⟩ := List.head?_eq_some_iff.1 e
      exact ⟨ds, rfl⟩
  rcases isMark_iff.1 h.mem with ⟨c', d, rfl, hm⟩ | ⟨c', rfl, hm⟩
  · obtain ⟨rfl, rfl⟩ : c = c' ∧ cs = d :: rest := List.cons.inj ht
    obtain ⟨hc, hd⟩ := utf8Size_of_mem_doubleMarks hm
    rw [munch_mark (List.mem_append_right _ (List.mem_map_of_mem hm)) slash]
    simp only [takeMark, List.contains_iff_mem.2 hm, if_true, byteLength_cons, byteLength_nil, hc, hd]
  · obtain ⟨rfl, e⟩ : c = c' ∧ cs = rest := List.cons.inj ht
    subst e
    rw [munch_mark (List.mem_append_left _ hm) slash]
    cases cs with
    | nil => simp [takeMark, hm, utf8Size_of_mem_singleMarks hm]
    | cons d cs =>
      have alone : (c, d) ∉ doubleMarks := fun hd => by
        have le := h.longest [c, d] (isMark_iff.2 (.inl ⟨c, d, rfl, hd⟩)) ⟨cs, rfl⟩
        simp at le
      simp [takeMark, alone, hm, utf8Size_of_mem_singleMarks hm]

/-! ## Literals -/

theorem unescape?_eq_some_iff {e c : Char} : unescape? e = some c ↔ (e, c) ∈ escapes := by
  constructor
  · intro h
    unfold unescape? at h
    split at h
    all_goals cases h
    all_goals decide
  · intro h
    simp only [escapes, List.mem_cons, Prod.mk.injEq, List.not_mem_nil, or_false] at h
    rcases h with ⟨rfl, rfl⟩ | ⟨rfl, rfl⟩ | ⟨rfl, rfl⟩ | ⟨rfl, rfl⟩ | ⟨rfl, rfl⟩ | ⟨rfl, rfl⟩ <;> rfl

/-- The body of a literal is read, and what follows is looked at next. -/
theorem Denotes.closeString {body contents : List Char} (h : Denotes body contents) (len : Nat) (acc cs : List Char) :
    closeString len acc (body ++ cs) = Token.closeString (len + byteLength body) (contents.reverse ++ acc) cs := by
  induction h generalizing len acc with
  | nil => rfl
  | @plain c body contents quote newline backslash _ ih =>
    rw [List.cons_append, closeString_plain quote newline backslash, ih, byteLength_cons, List.reverse_cons,
      List.append_assoc, Nat.add_assoc]
    rfl
  | @escaped e c body contents he _ ih =>
    have size : '\\'.utf8Size = 1 := rfl
    rw [List.cons_append, List.cons_append, Token.closeString, unescape?_eq_some_iff.2 he]
    dsimp only
    rw [ih, byteLength_cons, byteLength_cons, size, List.reverse_cons, List.append_assoc]
    congr 1
    omega

/-- Behind a quote there is the body of a literal, which something ends. -/
theorem exists_body (cs : List Char) : ∃ body contents rest, cs = body ++ rest ∧ Denotes body contents ∧
    ((∃ after, rest = '"' :: after) ∨ (rest = [] ∨ rest = ['\\'] ∨ rest.head? = some '\n') ∨
      ∃ e after, rest = '\\' :: e :: after ∧ ∀ c, (e, c) ∉ escapes) := by
  -- An escape is two characters, so the induction is on the length.
  induction h : cs.length using Nat.strongRecOn generalizing cs with
  | ind n ih =>
    subst h
    rcases cs with _ | ⟨c, cs⟩
    · exact ⟨[], [], [], rfl, .nil, .inr (.inl (.inl rfl))⟩
    by_cases quote : c = '"'
    · exact ⟨[], [], _, rfl, .nil, .inl ⟨cs, by rw [quote]⟩⟩
    by_cases newline : c = '\n'
    · exact ⟨[], [], _, rfl, .nil, .inr (.inl (.inr (.inr (by rw [newline]; rfl))))⟩
    by_cases backslash : c = '\\'
    · subst backslash
      rcases cs with _ | ⟨e, cs⟩
      · exact ⟨[], [], _, rfl, .nil, .inr (.inl (.inr (.inl rfl)))⟩
      by_cases known : ∃ c, (e, c) ∈ escapes
      · obtain ⟨c, hc⟩ := known
        obtain ⟨body, contents, rest, hcs, hbody, hend⟩ := ih cs.length (by simp only [List.length_cons]; omega) cs rfl
        exact ⟨_, _, rest, by rw [hcs]; rfl, .escaped hc hbody, hend⟩
      · exact ⟨[], [], _, rfl, .nil, .inr (.inr ⟨e, cs, rfl, fun c hc => known ⟨c, hc⟩⟩)⟩
    · obtain ⟨body, contents, rest, hcs, hbody, hend⟩ := ih cs.length (by simp) cs rfl
      exact ⟨_, _, rest, by rw [hcs]; rfl, .plain quote newline backslash hbody, hend⟩

theorem literal_munch {body contents : List Char} (h : Denotes body contents) (rest : List Char) :
    munch '"' (body ++ ['"'] ++ rest) =
      .ok ⟨some (.str (some (String.ofList contents))), byteLength ('"' :: (body ++ ['"'])), rest⟩ := by
  have size : '"'.utf8Size = 1 := rfl
  have opened : munch '"' (body ++ ['"'] ++ rest) = closeString 1 [] (body ++ '"' :: rest) := by
    rw [List.append_assoc]
    rfl
  rw [opened, h.closeString, closeString, byteLength_cons, byteLength_append, byteLength_cons, byteLength_nil, size]
  simp [Nat.add_assoc]

/-- Two literals at the front of one text are the same. -/
theorem Denotes.unique {body contents body' contents' rest rest' : List Char} (h : Denotes body contents)
    (h' : Denotes body' contents') (e : body ++ '"' :: rest = body' ++ '"' :: rest') : body = body' := by
  have one := literal_munch h rest
  have other := literal_munch h' rest'
  rw [List.append_assoc, List.singleton_append] at one other
  rw [e, other] at one
  have same : rest' = rest :=
    congrArg (fun r : Except Misfit Piece => match r with | .ok p => p.rest | .error _ => []) one
  rw [same] at e
  exact List.append_cancel_right e

/-! ## Comments -/

theorem closeComment_unclosed {cs : List Char} (h : ¬ ['*', '/'] <:+: cs) (len : Nat) :
    closeComment len cs = .error ⟨0, .unclosedComment⟩ := by
  induction cs generalizing len with
  | nil => rfl
  | cons c cs ih =>
    have inner : ¬ ['*', '/'] <:+: cs := fun hi => h (List.infix_cons hi)
    have early : ∀ ds, c = '*' → cs = '/' :: ds → False := by
      rintro ds rfl rfl
      exact h ⟨[], ds, rfl⟩
    rw [closeComment.eq_2 _ _ _ early, ih inner]

/-- The first of the ends of a comment. -/
theorem exists_first_end {cs : List Char} (h : ['*', '/'] <:+: cs) :
    ∃ body rest, cs = body ++ ['*', '/'] ++ rest ∧ ¬ ['*', '/'] <:+: body := by
  induction cs with
  | nil => exact absurd h (by simp)
  | cons c cs ih =>
    rcases List.infix_cons_iff.1 h with ⟨rest, hr⟩ | h
    · exact ⟨[], rest, hr.symm, by simp⟩
    by_cases now : ['*', '/'] <+: c :: cs
    · obtain ⟨rest, hr⟩ := now
      exact ⟨[], rest, hr.symm, by simp⟩
    · obtain ⟨body, rest, hcs, hbody⟩ := ih h
      refine ⟨c :: body, rest, by rw [hcs]; rfl, fun hi => ?_⟩
      rcases List.infix_cons_iff.1 hi with ⟨tail, ht⟩ | hi
      · exact now ⟨tail ++ ['*', '/'] ++ rest, by rw [hcs]; simpa using congrArg (· ++ ['*', '/'] ++ rest) ht⟩
      · exact hbody hi

theorem line_munch {body rest : List Char} (hbody : '\n' ∉ body) (hrest : ∀ c ∈ rest.head?, c = '\n') :
    munch '/' ('/' :: body ++ rest) = .ok ⟨none, byteLength ('/' :: '/' :: body), rest⟩ := by
  have slash : '/'.utf8Size = 1 := rfl
  have plain : ∀ d ∈ '/' :: body, decide (d ≠ '\n') = true := by
    intro d hd
    rcases List.mem_cons.1 hd with rfl | hd
    · decide
    · exact decide_eq_true fun e => hbody (e ▸ hd)
  obtain ⟨taken, left⟩ := span_eq plain fun d hd hn => decide_eq_true_iff.1 hn (hrest d hd)
  rw [munch, taken, left, byteLength_cons '/' ('/' :: body), slash]
  rfl

theorem block_munch {body : List Char} (hbody : ¬ ['*', '/'] <:+: body) (rest : List Char) :
    munch '/' ('*' :: (body ++ ['*', '/']) ++ rest) =
      .ok ⟨none, byteLength ('/' :: '*' :: (body ++ ['*', '/'])), rest⟩ := by
  have closed : munch '/' ('*' :: (body ++ '*' :: '/' :: rest)) = .ok ⟨none, 2 + byteLength body + 2, rest⟩ :=
    closeComment_body hbody 2 rest
  have text : '*' :: (body ++ ['*', '/']) ++ rest = '*' :: (body ++ '*' :: '/' :: rest) := by simp
  have length : byteLength ('/' :: '*' :: (body ++ ['*', '/'])) = 2 + byteLength body + 2 := by
    simp [show '/'.utf8Size = 1 from rfl, show '*'.utf8Size = 1 from rfl]
    omega
  rw [text, closed, length]

/-! ## The scanner finds them -/

theorem Applies.munch {k : Option Kind} {c : Char} {cs taken rest : List Char} (h : Applies k taken rest)
    (ht : c :: cs = taken ++ rest) : munch c cs = .ok ⟨k, byteLength taken, rest⟩ := by
  cases h with
  | blank hb =>
    obtain ⟨rfl, rfl⟩ := List.cons.inj ht
    rw [Token.munch, if_pos hb, byteLength_cons, utf8Size_of_isBlank hb]
    rfl
  | line hbody hrest =>
    obtain ⟨rfl, rfl⟩ := List.cons.inj ht
    exact line_munch hbody hrest
  | block hbody =>
    obtain ⟨rfl, rfl⟩ := List.cons.inj ht
    exact block_munch hbody rest
  | word hw => exact word_munch hw ht
  | number hn hr small => rw [number_munch hn.mem hr ht, if_neg (Nat.not_lt.2 small)]
  | mark hm line block => exact mark_munch hm line block ht
  | literal hbody =>
    obtain ⟨rfl, rfl⟩ := List.cons.inj ht
    exact literal_munch hbody rest

theorem Misfits.munch {c : Char} {cs text : List Char} {offset : Nat} {cause : SyntaxError}
    (h : Misfits text offset cause) (ht : c :: cs = text) : munch c cs = .error ⟨offset, cause⟩ := by
  cases h with
  | comment hcs =>
    obtain ⟨rfl, rfl⟩ := List.cons.inj ht
    exact closeComment_unclosed hcs 2
  | @zeros d ds hd =>
    obtain ⟨rfl, rfl⟩ := List.cons.inj ht
    have long : ('0' == '0' && decide (('0' :: (d :: ds).takeWhile Char.isDigit).length ≠ 1)) = true := by
      simp [isDigit_iff.2 hd]
    rw [munch_digit (by decide), takeNumber, if_pos long]
  | large hn big => rw [number_munch hn.mem (large_ends hn big) ht, if_pos big]
  | @unterminated body contents rest hbody hrest =>
    obtain ⟨rfl, rfl⟩ := List.cons.inj ht
    show closeString 1 [] (body ++ rest) = _
    rw [hbody.closeString]
    rcases hrest with rfl | rfl | hrest
    · rfl
    · rfl
    · obtain ⟨tail, rfl⟩ := List.head?_eq_some_iff.1 hrest
      rfl
  | @escape body contents rest e hbody unknown =>
    obtain ⟨rfl, rfl⟩ := List.cons.inj ht
    show closeString 1 [] (body ++ '\\' :: e :: rest) = _
    have none : unescape? e = none := by
      cases he : unescape? e with
      | none => rfl
      | some c => exact absurd (unescape?_eq_some_iff.1 he) (unknown c)
    rw [hbody.closeString, closeString, none]
  | stray blank letter figure quote alone =>
    obtain ⟨rfl, rfl⟩ := List.cons.inj ht
    have slash : c ≠ '/' := fun e => alone ['/'] (isMark_iff.2 (.inr ⟨'/', rfl, by decide⟩)) ⟨cs, by rw [e]; rfl⟩
    have single : c ∉ singleMarks := fun hm => alone [c] (isMark_iff.2 (.inr ⟨c, rfl, hm⟩)) ⟨cs, rfl⟩
    have digit : c.isDigit = false := Bool.eq_false_iff.2 fun h => figure (isDigit_iff.1 h)
    have start : isWordStart c = false := Bool.eq_false_iff.2 fun h => letter (isWordStart_iff.1 h)
    have opened : Token.munch c cs = takeMark c cs := by simp [Token.munch, blank, slash, digit, start, quote]
    rw [opened]
    rcases cs with _ | ⟨d, cs⟩
    · simp [takeMark, single]
    · have double : (c, d) ∉ doubleMarks := fun hm => alone [c, d] (isMark_iff.2 (.inl ⟨c, d, rfl, hm⟩)) ⟨cs, rfl⟩
      simp [takeMark, single, double]

/-! ## One or the other -/

/-- If a mark stands at the front of a text, one of them is the longest. -/
theorem exists_longest_mark {text w : List Char} (hw : IsMark w) (front : w <+: text) :
    ∃ taken, Longest IsMark taken text := by
  by_cases double : ∃ v, IsMark v ∧ v <+: text ∧ v.length = 2
  · obtain ⟨v, hv, hfront, hlen⟩ := double
    exact ⟨v, hv, hfront, fun u hu _ => hlen ▸ length_le_of_isMark hu⟩
  · refine ⟨w, hw, front, fun u hu hfront => ?_⟩
    have most := length_le_of_isMark hu
    have not_two : u.length ≠ 2 := fun e => double ⟨u, hu, hfront, e⟩
    have some : 1 ≤ w.length := by
      rcases isMark_iff.1 hw with ⟨c, d, rfl, -⟩ | ⟨c, rfl, -⟩ <;> simp
    omega

theorem figure_applies_or_misfits {c : Char} (hc : IsFigure c) (cs : List Char) :
    (∃ k taken rest, c :: cs = taken ++ rest ∧ Applies k taken rest) ∨
    ∃ offset cause, Misfits (c :: cs) offset cause := by
  by_cases zero : c = '0'
  · subst zero
    by_cases more : ∃ d ∈ cs.head?, IsFigure d
    · obtain ⟨d, hd, hf⟩ := more
      obtain ⟨cs, rfl⟩ := List.head?_eq_some_iff.1 hd
      exact .inr ⟨_, _, .zeros hf⟩
    · refine .inl ⟨_, ['0'], cs, rfl,
        .number ⟨.inl rfl, ⟨cs, rfl⟩, fun w hw front => ?_⟩ (fun d hd hf => more ⟨d, hd, hf⟩)
        (by decide)⟩
      obtain ⟨d, ds, rfl, -, -, hz⟩ := hw.shape
      obtain ⟨rfl, -⟩ := List.cons_prefix_cons.1 front
      exact Nat.le_of_eq (by rw [hz rfl])
  · have run : Longest (IsRun (fun c => IsFigure c ∧ c ≠ '0') IsFigure) (c :: cs.takeWhile Char.isDigit) (c :: cs) :=
      longest_run (fun d => isDigit_iff) ⟨hc, zero⟩ cs
    have text : c :: cs = c :: cs.takeWhile Char.isDigit ++ cs.dropWhile Char.isDigit := by simp
    have longest : Longest IsNumeral (c :: cs.takeWhile Char.isDigit) (c :: cs) := by
      refine ⟨.inr run.mem, run.front, fun w hw front => ?_⟩
      rcases hw with rfl | hw
      · exact absurd (List.cons_prefix_cons.1 front).1.symm zero
      · exact run.longest w hw front
    rw [text] at longest
    by_cases large : maxNumber < decimal (c :: cs.takeWhile Char.isDigit)
    · rw [text]
      exact .inr ⟨_, _, .large longest large⟩
    · refine .inl ⟨_, _, _, text,
        .number longest (longest.ends fun d hd => .inr (run.mem.concat hd)) (Nat.le_of_not_lt large)⟩

theorem applies_or_misfits (c : Char) (cs : List Char) :
    (∃ k taken rest, c :: cs = taken ++ rest ∧ Applies k taken rest) ∨
    ∃ offset cause, Misfits (c :: cs) offset cause := by
  by_cases blank : isBlank c
  · exact .inl ⟨none, [c], cs, rfl, .blank blank⟩
  by_cases figure : IsFigure c
  · exact figure_applies_or_misfits figure cs
  by_cases letter : IsLetter c
  · have text : c :: cs = c :: cs.takeWhile isWordChar ++ cs.dropWhile isWordChar := by simp
    exact .inl ⟨_, _, _, text, .word (text ▸ longest_run (fun d => isWordChar_iff) letter cs)⟩
  by_cases quote : c = '"'
  · subst quote
    obtain ⟨body, contents, rest, rfl, hbody, ⟨after, rfl⟩ | hend | ⟨e, after, rfl, unknown⟩⟩ := exists_body cs
    · exact .inl ⟨_, _, after, by simp, .literal hbody⟩
    · exact .inr ⟨_, _, .unterminated hbody hend⟩
    · exact .inr ⟨_, _, .escape hbody unknown⟩
  by_cases line : ['/', '/'] <+: c :: cs
  · obtain ⟨ds, hds⟩ := line
    obtain ⟨rfl, rfl⟩ := List.cons.inj hds.symm
    have text : '/' :: '/' :: ds = '/' :: '/' :: ds.takeWhile (· ≠ '\n') ++ ds.dropWhile (· ≠ '\n') := by simp
    refine .inl ⟨none, _, _, text, .line (fun hn => ?_) fun d hd => ?_⟩
    · simpa using List.all_eq_true.1 (List.all_takeWhile (p := (· ≠ '\n'))) '\n' hn
    · have stop := List.head?_dropWhile_not (fun x : Char => decide (x ≠ '\n')) ds
      rw [hd] at stop
      simpa using stop
  by_cases block : ['/', '*'] <+: c :: cs
  · obtain ⟨ds, hds⟩ := block
    obtain ⟨rfl, rfl⟩ := List.cons.inj hds.symm
    by_cases closed : ['*', '/'] <:+: ds
    · obtain ⟨body, rest, rfl, hbody⟩ := exists_first_end closed
      exact .inl ⟨none, _, rest, by simp, .block hbody⟩
    · exact .inr ⟨_, _, .comment closed⟩
  by_cases mark : ∃ w, IsMark w ∧ w <+: c :: cs
  · obtain ⟨w, hw, front⟩ := mark
    obtain ⟨taken, longest⟩ := exists_longest_mark hw front
    obtain ⟨rest, text⟩ := longest.front
    rw [← text] at longest line block
    exact .inl ⟨_, taken, rest, text.symm, .mark longest line block⟩
  · exact .inr ⟨_, _, .stray blank letter figure quote fun w hw front => mark ⟨w, hw, front⟩⟩

/-- What the scanner takes off a text is what applies there. -/
theorem applies_of_munch {c : Char} {cs : List Char} {p : Piece} (h : munch c cs = .ok p) :
    ∃ taken, c :: cs = taken ++ p.rest ∧ p.len = byteLength taken ∧ Applies p.kind? taken p.rest := by
  rcases applies_or_misfits c cs with ⟨k, taken, rest, ht, applies⟩ | ⟨offset, cause, misfits⟩
  · cases h.symm.trans (applies.munch ht)
    exact ⟨taken, ht, rfl, applies⟩
  · cases h.symm.trans (misfits.munch rfl)

theorem misfits_of_munch {c : Char} {cs : List Char} {m : Misfit} (h : munch c cs = .error m) :
    Misfits (c :: cs) m.offset m.cause := by
  rcases applies_or_misfits c cs with ⟨k, taken, rest, ht, applies⟩ | ⟨offset, cause, misfits⟩
  · cases h.symm.trans (applies.munch ht)
  · cases h.symm.trans (misfits.munch rfl)
    exact misfits

theorem Applies.longest {k : Kind} {taken rest : List Char} (h : Applies (some k) taken rest) :
    Longest k.Class taken (taken ++ rest) := by
  cases h with
  | word hw =>
    split
    · exact hw
    · exact hw
  | number hn _ _ => exact hn
  | mark hm _ _ => exact hm
  | @literal body contents _ hbody =>
    refine ⟨⟨body, contents, rfl, hbody⟩, List.prefix_append _ _, ?_⟩
    rintro w ⟨body', contents', rfl, hbody'⟩ ⟨tail, e⟩
    have same : body' ++ '"' :: tail = body ++ '"' :: rest := by simpa using e
    exact Nat.le_of_eq (by rw [hbody'.unique hbody same])

theorem Applies.ne_nil {k : Option Kind} {taken rest : List Char} (h : Applies k taken rest) : taken ≠ [] := by
  rintro rfl
  cases h with
  | word hw =>
    obtain ⟨c, cs, e, -⟩ := hw.mem
    cases e
  | number hn _ _ =>
    obtain ⟨c, cs, e, -⟩ := hn.mem.shape
    cases e
  | mark hm _ _ =>
    rcases isMark_iff.1 hm.mem with ⟨c, d, e, -⟩ | ⟨c, e, -⟩
    · cases e
    · cases e

theorem Applies.ne_eof {k : Kind} {taken rest : List Char} (h : Applies (some k) taken rest) : k ≠ .eof := by
  cases h with
  | word _ => split <;> simp
  | number _ _ _ | mark _ _ _ | literal _ => simp

theorem Misfits.ne_nil {text : List Char} {offset : Nat} {cause : SyntaxError} (h : Misfits text offset cause) :
    text ≠ [] := by
  cases h with
  | large hn _ =>
    obtain ⟨c, cs, rfl, -⟩ := hn.mem.shape
    exact List.cons_ne_nil _ _
  | comment _ | zeros _ | unterminated _ _ | escape _ _ | stray _ _ _ _ _ => exact List.cons_ne_nil _ _

/-- A misfit stands between two characters. -/
theorem Misfits.boundary {text : List Char} {offset : Nat} {cause : SyntaxError} (h : Misfits text offset cause) :
    ∃ front back, text = front ++ back ∧ byteLength front = offset := by
  cases h with
  | @escape body contents rest e _ _ => exact ⟨'"' :: body, _, rfl, byteLength_cons ..⟩
  | @zeros d cs _ => exact ⟨['0'], d :: cs, rfl, rfl⟩
  | comment _ | large _ _ | unterminated _ _ | stray _ _ _ _ _ => exact ⟨[], _, rfl, rfl⟩

/-! ## Whole texts -/

/-- A text that starts at byte `off` is covered by gaps and by tokens, the last of them its end. -/
inductive Tiles : Nat → List Char → List Token → Prop
  | nil {off : Nat} : Tiles off [] [⟨.eof, off, 0⟩]
  | gap {off : Nat} {taken rest : List Char} {tokens : List Token} : Applies none taken rest →
      Tiles (off + byteLength taken) rest tokens → Tiles off (taken ++ rest) tokens
  | token {off : Nat} {k : Kind} {taken rest : List Char} {tokens : List Token} : Applies (some k) taken rest →
      Tiles (off + byteLength taken) rest tokens → Tiles off (taken ++ rest) (⟨k, off, byteLength taken⟩ :: tokens)

/-- The scanner gets to `rest`, having taken `before` off a text. -/
inductive Reached (text : List Char) : List Char → List Char → Prop
  | start : Reached text [] text
  | next {k : Option Kind} {before taken rest : List Char} :
      Reached text before (taken ++ rest) → Applies k taken rest → Reached text (before ++ taken) rest

/-- A text of which nothing can be taken. -/
def Stuck (text : List Char) : Prop := text ≠ [] ∧ ∀ k taken rest, text = taken ++ rest → ¬ Applies k taken rest

/-- A token is the longest part of the source of its class, where it stands. -/
structure Cut (source : String) (t : Token) : Prop where
  ne_eof : t.kind ≠ .eof
  pos : 1 ≤ t.len
  stands : ∃ before taken rest, source.toList = before ++ taken ++ rest ∧ t.loc = byteLength before ∧
    t.len = byteLength taken ∧ t.text? source = some (String.ofList taken) ∧ Applies (some t.kind) taken rest ∧
      Longest t.kind.Class taken (taken ++ rest)

theorem Applies.cons {k : Option Kind} {taken rest : List Char} (h : Applies k taken rest) :
    ∃ c cs, taken ++ rest = c :: cs ∧ Token.munch c cs = .ok ⟨k, byteLength taken, rest⟩ := by
  obtain ⟨c, cs, rfl⟩ := List.exists_cons_of_ne_nil h.ne_nil
  exact ⟨c, cs ++ rest, rfl, h.munch rfl⟩

theorem Tiles.scanFrom {off : Nat} {cs : List Char} {tokens : List Token} (h : Tiles off cs tokens)
    (acc : Array Token) :
    scanFrom off acc cs = .ok (acc ++ tokens.toArray) := by
  induction h generalizing acc with
  | nil => rw [Token.scanFrom, Array.push_eq_append]
  | gap happ _ ih =>
    obtain ⟨c, cs, text, hm⟩ := happ.cons
    rw [text, scanFrom_gap hm rfl]
    exact ih acc
  | token happ _ ih =>
    obtain ⟨c, cs, text, hm⟩ := happ.cons
    rw [text, scanFrom_token hm rfl, ih, Array.push_eq_append, Array.append_assoc]
    simp

theorem tiles_of_scanFrom {off : Nat} {acc out : Array Token} {cs : List Char} (h : scanFrom off acc cs = .ok out) :
    ∃ tokens : List Token, out = acc ++ tokens.toArray ∧ Tiles off cs tokens := by
  fun_induction scanFrom off acc cs with
  | case1 off acc =>
    cases h
    exact ⟨[⟨.eof, off, 0⟩], Array.push_eq_append .., .nil⟩
  | case2 => cases h
  | case3 off acc c cs p hm _ ih =>
    obtain ⟨tokens, hout, htiles⟩ := ih h
    obtain ⟨taken, ht, hl, happ⟩ := applies_of_munch hm
    rw [hl] at htiles
    rw [ht]
    cases hk : p.kind? with
    | none =>
      rw [hk] at happ
      simp only [hk] at hout
      exact ⟨tokens, hout, .gap happ htiles⟩
    | some k =>
      rw [hk] at happ
      simp only [hk] at hout
      refine ⟨_, ?_, .token happ htiles⟩
      rw [hout, hl, Array.push_eq_append, Array.append_assoc]
      simp

theorem misfits_of_scanFrom {off : Nat} {acc : Array Token} {cs : List Char} {m : Misfit}
    (h : scanFrom off acc cs = .error m)
    {text before : List Char} (reached : Reached text before cs) (ho : off = byteLength before) :
    ∃ before rest offset, Reached text before rest ∧ Misfits rest offset m.cause ∧
      m.offset = byteLength before + offset := by
  fun_induction scanFrom off acc cs generalizing before with
  | case1 => cases h
  | case2 off acc c cs m' hm =>
    cases h
    exact ⟨before, c :: cs, m'.offset, reached, misfits_of_munch hm, by rw [ho]⟩
  | case3 off acc c cs p hm _ ih =>
    obtain ⟨taken, ht, hl, happ⟩ := applies_of_munch hm
    rw [ht] at reached
    exact ih h (reached.next happ) (by rw [ho, hl, byteLength_append])

/-- Scanning a text goes through every place that is reached. -/
theorem Reached.scanFrom {text before rest : List Char} (h : Reached text before rest) (acc : Array Token) :
    ∃ acc', scanFrom 0 acc text = Token.scanFrom (byteLength before) acc' rest := by
  induction h with
  | start => exact ⟨acc, rfl⟩
  | @next k before taken rest _ happ ih =>
    obtain ⟨acc', hscan⟩ := ih
    obtain ⟨c, cs, text, hm⟩ := happ.cons
    rw [hscan, text, byteLength_append]
    cases k with
    | none => exact ⟨acc', scanFrom_gap hm rfl⟩
    | some k => exact ⟨_, scanFrom_token hm rfl⟩

theorem Reached.append {text before rest : List Char} (h : Reached text before rest) : text = before ++ rest := by
  induction h with
  | start => rfl
  | next _ _ ih => rw [ih, List.append_assoc]

theorem Misfits.scanFrom {text before rest : List Char} {offset : Nat} {cause : SyntaxError}
    (h : Misfits rest offset cause)
    (reached : Reached text before rest) : scanFrom 0 #[] text = .error ⟨byteLength before + offset, cause⟩ := by
  obtain ⟨acc, hscan⟩ := reached.scanFrom #[]
  obtain ⟨c, cs, rfl⟩ := List.exists_cons_of_ne_nil h.ne_nil
  rw [hscan, Token.scanFrom]
  split
  · rename_i m hm
    cases hm.symm.trans (h.munch rfl)
    rfl
  · rename_i p hm
    cases hm.symm.trans (h.munch rfl)

theorem stuck_iff {text : List Char} : Stuck text ↔ ∃ offset cause, Misfits text offset cause := by
  constructor
  · rintro ⟨ne, none⟩
    obtain ⟨c, cs, rfl⟩ := List.exists_cons_of_ne_nil ne
    rcases applies_or_misfits c cs with ⟨k, taken, rest, ht, applies⟩ | misfits
    · exact absurd applies (none k taken rest ht)
    · exact misfits
  · rintro ⟨offset, cause, misfits⟩
    obtain ⟨c, cs, rfl⟩ := List.exists_cons_of_ne_nil misfits.ne_nil
    refine ⟨misfits.ne_nil, fun k taken rest ht applies => ?_⟩
    cases (misfits.munch rfl).symm.trans (applies.munch ht)

/-- What the tokens of a covered text are, seen from the source. -/
theorem Tiles.cuts {off : Nat} {cs : List Char} {tokens : List Token} (h : Tiles off cs tokens) (source : String)
    (before : List Char) (hs : source.toList = before ++ cs) (ho : off = byteLength before) :
    ∃ words, tokens = words ++ [⟨.eof, source.utf8ByteSize, 0⟩] ∧ words.Pairwise (fun t u => t.loc + t.len ≤ u.loc) ∧
      (∀ t ∈ words, off ≤ t.loc) ∧ ∀ t ∈ words, t.Cut source := by
  induction h generalizing before with
  | nil =>
    have total : source.utf8ByteSize = byteLength before := by
      rw [← utf8ByteSize_ofList, ← List.append_nil before, ← hs, String.ofList_toList]
    exact ⟨[], by rw [ho, total]; rfl, List.Pairwise.nil, by simp, by simp⟩
  | @gap off taken rest tokens _ _ ih =>
    obtain ⟨words, htokens, apart, from', cut⟩ := ih (before ++ taken) (by rw [hs, List.append_assoc])
      (by rw [ho, byteLength_append])
    exact ⟨words, htokens, apart, fun t ht => Nat.le_trans (Nat.le_add_right _ _) (from' t ht), cut⟩
  | @token off k taken rest tokens happ _ ih =>
    have text : source.toList = before ++ taken ++ rest := by rw [hs, List.append_assoc]
    obtain ⟨words, htokens, apart, from', cut⟩ := ih (before ++ taken) text (by rw [ho, byteLength_append])
    have first : Cut source ⟨k, off, byteLength taken⟩ := by
      refine ⟨happ.ne_eof, ?_, before, taken, rest, text, ho, rfl, ho ▸ text?_of_toList text k, happ, happ.longest⟩
      obtain ⟨c, cs, rfl⟩ := List.exists_cons_of_ne_nil happ.ne_nil
      have := c.utf8Size_pos
      show 1 ≤ byteLength (c :: cs)
      rw [byteLength_cons]
      omega
    refine ⟨_ :: words, by rw [htokens]; rfl, List.pairwise_cons.2 ⟨from', apart⟩, ?_,
      List.forall_mem_cons.2 ⟨first, cut⟩⟩
    exact List.forall_mem_cons.2 ⟨Nat.le_refl _, fun t ht => Nat.le_trans (Nat.le_add_right _ _) (from' t ht)⟩

theorem scan_eq_ok_iff {source : String} {tokens : List Token} :
    scan source = .ok tokens ↔ Tiles 0 source.toList tokens := by
  constructor
  · intro h
    unfold scan at h
    split at h
    · rename_i out hscan
      cases h
      obtain ⟨tokens, rfl, htiles⟩ := tiles_of_scanFrom hscan
      simpa using htiles
    · cases h
  · intro h
    rw [scan, h.scanFrom #[]]
    simp

/-- The place of a misfit can be shown. -/
theorem Misfits.place {source : String} {before rest : List Char} {offset : Nat} {cause : SyntaxError}
    (h : Misfits rest offset cause) (hs : source.toList = before ++ rest) :
    ∃ place, Text.Excerpt.at? source (byteLength before + offset) = some place := by
  obtain ⟨front, back, rfl, rfl⟩ := h.boundary
  have parts : source = String.ofList (before ++ front) ++ String.ofList back := by
    rw [← String.toList_inj, hs]
    simp
  have size : (String.ofList (before ++ front)).utf8ByteSize = byteLength before + byteLength front := by
    rw [utf8ByteSize_ofList, byteLength_append]
  have inside : min (byteLength before + byteLength front) source.utf8ByteSize =
      byteLength before + byteLength front := by
    rw [parts, String.utf8ByteSize_append, size]
    omega
  rw [Text.Excerpt.at?, inside, Text.splitAt?_eq_some_iff.2 ⟨parts, size⟩]
  exact ⟨_, rfl⟩

theorem scan_eq_error_iff {source : String} {e : Failure} :
    scan source = .error e ↔ ∃ before rest offset cause place, Reached source.toList before rest ∧
    Misfits rest offset cause ∧
      Text.Excerpt.at? source (byteLength before + offset) = some place ∧ e = .rejected (.located place cause) := by
  constructor
  · intro h
    unfold scan at h
    split at h
    · cases h
    · rename_i m hscan
      cases h
      obtain ⟨before, rest, offset, reached, misfits, hoff⟩ := misfits_of_scanFrom hscan .start rfl
      obtain ⟨place, hplace⟩ := misfits.place reached.append
      refine ⟨before, rest, offset, m.cause, place, reached, misfits, hplace, ?_⟩
      rw [Failure.at, hoff, hplace]
  · rintro ⟨before, rest, offset, cause, place, reached, misfits, hplace, rfl⟩
    rw [scan, misfits.scanFrom reached]
    show Except.error (Failure.at source (byteLength before + offset) cause) = _
    rw [Failure.at, hplace]

/-- The scanner answers tokens exactly for the texts that gaps and
    tokens cover, each token the longest of its class and from one boundary of characters to another; the
    last one, and no other, is the end. It fails exactly if it reaches a place where nothing applies, and
    then with the cause and the place of the misfit. -/
theorem scan_tiles (source : String) :
    (∀ tokens, scan source = .ok tokens ↔ Tiles 0 source.toList tokens) ∧
      (∀ tokens, scan source = .ok tokens → ∃ words, tokens = words ++ [⟨.eof, source.utf8ByteSize, 0⟩] ∧
        words.Pairwise (fun t u => t.loc + t.len ≤ u.loc) ∧ ∀ t ∈ words, t.Cut source) ∧
      ((∃ e, scan source = .error e) ↔ ∃ before rest, Reached source.toList before rest ∧ Stuck rest) ∧
      ∀ e, scan source = .error e ↔ ∃ before rest offset cause place, Reached source.toList before rest ∧
        Misfits rest offset cause ∧ Text.Excerpt.at? source (byteLength before + offset) = some place ∧
          e = .rejected (.located place cause) := by
  refine ⟨fun tokens => scan_eq_ok_iff, fun tokens h => ?_, ⟨?_, ?_⟩, fun e => scan_eq_error_iff⟩
  · obtain ⟨words, htokens, apart, -, cut⟩ := (scan_eq_ok_iff.1 h).cuts source [] rfl rfl
    exact ⟨words, htokens, apart, cut⟩
  · rintro ⟨e, h⟩
    obtain ⟨before, rest, offset, cause, place, reached, misfits, -⟩ := scan_eq_error_iff.1 h
    exact ⟨before, rest, reached, stuck_iff.2 ⟨offset, cause, misfits⟩⟩
  · rintro ⟨before, rest, reached, stuck⟩
    obtain ⟨offset, cause, misfits⟩ := stuck_iff.1 stuck
    obtain ⟨place, hplace⟩ := misfits.place reached.append
    exact ⟨_, scan_eq_error_iff.2 ⟨before, rest, offset, cause, place, reached, misfits, hplace, rfl⟩⟩

/-- Tokens around a comment with a character of two bytes, and a text with a misfit behind its first token. -/
theorem scan_tiles_comment_and_misfit :
    Tiles 0 "x<=/*é*/10".toList [⟨.ident, 0, 1⟩, ⟨.mark, 1, 2⟩, ⟨.number (some 10), 9, 2⟩, ⟨.eof, 11, 0⟩] ∧
      ∃ before rest, Reached "x 01".toList before rest ∧ Stuck rest :=
  ⟨((scan_tiles "x<=/*é*/10").1 _).1 (by decide +kernel),
    (scan_tiles "x 01").2.2.1.1 ⟨.rejected (.located ⟨"'x 01'", "    ^"⟩ .leadingZeros), by decide +kernel⟩⟩

end DotCom.Token
