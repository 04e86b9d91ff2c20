/-
  DotCom.Proofs.Scanning — the tokens of a source text as symbols, said without offsets.

  - `Token.munch_cuts`: a piece is a part of the text at its front, of the length it tells, and a
    token is of the class of its kind.
  - `Token.Scans`: the symbols of a text, piece by piece; `Token.scan_eq_ok` and `Token.Scans.scan` tie
    them to the tokens.
-/

import DotCom.Proofs.Grammar
import DotCom.Token.Scan

namespace DotCom.Token

/-! ## Bytes -/

@[simp] theorem byteLength_nil : byteLength [] = 0 := rfl

theorem foldl_utf8Size (n : Nat) (cs : List Char) :
    cs.foldl (fun n c => n + c.utf8Size) n = n + byteLength cs := by
  induction cs generalizing n with
  | nil => rfl
  | cons c cs ih => rw [byteLength, List.foldl_cons, List.foldl_cons, ih, ih (0 + c.utf8Size)]; omega

@[simp] theorem byteLength_cons (c : Char) (cs : List Char) : byteLength (c :: cs) = c.utf8Size + byteLength cs := by
  rw [byteLength, List.foldl_cons, foldl_utf8Size, Nat.zero_add]

@[simp] theorem byteLength_append (cs ds : List Char) : byteLength (cs ++ ds) = byteLength cs + byteLength ds := by
  induction cs with
  | nil => simp
  | cons c cs ih => simp [ih, Nat.add_assoc]

theorem utf8ByteSize_ofList (cs : List Char) : (String.ofList cs).utf8ByteSize = byteLength cs := by
  induction cs with
  | nil => rfl
  | cons c cs ih => simp [String.ofList_cons, ih]

/-- Text of one byte for each character. -/
theorem byteLength_of_ascii {cs : List Char} (h : ∀ c ∈ cs, c.utf8Size = 1) : byteLength cs = cs.length := by
  induction cs with
  | nil => rfl
  | cons c cs ih =>
    rw [byteLength_cons, h c List.mem_cons_self, ih fun d hd => h d (List.mem_cons_of_mem _ hd), List.length_cons]
    omega

/-! ## Words and names -/

def IsLetter (c : Char) : Prop := ('a' ≤ c ∧ c ≤ 'z') ∨ ('A' ≤ c ∧ c ≤ 'Z') ∨ c = '_'

def IsFigure (c : Char) : Prop := '0' ≤ c ∧ c ≤ '9'

/-- A name is a word that is no keyword. -/
def IsName (name : String) : Prop :=
  ∃ c cs, name.toList = c :: cs ∧ IsLetter c ∧ (∀ d ∈ cs, IsLetter d ∨ IsFigure d) ∧ name ∉ keywords

theorem isDigit_iff {c : Char} : c.isDigit ↔ IsFigure c := by
  rw [Char.isDigit, Bool.and_eq_true, decide_eq_true_iff, decide_eq_true_iff]
  exact Iff.rfl

theorem isWordStart_iff {c : Char} : isWordStart c ↔ IsLetter c := by
  have upper : c.isUpper ↔ 'A' ≤ c ∧ c ≤ 'Z' := decide_eq_true_iff
  have lower : c.isLower ↔ 'a' ≤ c ∧ c ≤ 'z' :=
    (Bool.and_eq_true_iff ..).trans (and_congr decide_eq_true_iff decide_eq_true_iff)
  have parts : isWordStart c = (c.isUpper || c.isLower || c == '_') := rfl
  rw [parts, Bool.or_eq_true, Bool.or_eq_true, upper, lower, beq_iff_eq, or_comm (a := _ ∧ _), or_assoc]
  exact Iff.rfl

theorem isWordChar_iff {c : Char} : isWordChar c ↔ IsLetter c ∨ IsFigure c := by
  rw [← isDigit_iff, ← isWordStart_iff]
  simp only [isWordChar, isWordStart, Char.isAlphanum, Bool.or_eq_true]
  exact or_right_comm

theorem utf8Size_of_isWordChar {c : Char} (h : isWordChar c) : c.utf8Size = 1 := by
  rw [Char.utf8Size_eq_one_iff]
  rcases isWordChar_iff.1 h with (⟨-, h⟩ | ⟨-, h⟩ | rfl) | ⟨-, h⟩
  · exact UInt32.le_trans h (by decide)
  · exact UInt32.le_trans h (by decide)
  · decide
  · exact UInt32.le_trans h (by decide)

theorem isWordChar_of_isWordStart {c : Char} (h : isWordStart c) : isWordChar c :=
  isWordChar_iff.2 (.inl (isWordStart_iff.1 h))

theorem utf8Size_of_isDigit {c : Char} (h : c.isDigit) : c.utf8Size = 1 :=
  utf8Size_of_isWordChar (isWordChar_iff.2 (.inr (isDigit_iff.1 h)))

/-! ## Pieces -/

def marks : List String := doubleMarks.map (fun m => String.ofList [m.1, m.2]) ++ singleMarks.map (String.ofList [·])

/-- What the characters of a token are by its kind. -/
def Kind.Fits (taken : List Char) : Kind → Prop
  | .mark => String.ofList taken ∈ marks
  | .keyword => String.ofList taken ∈ keywords
  | .str (some _) => True
  | .ident => IsName (String.ofList taken)
  | .number (some v) => 0 ≤ v ∧ v ≤ maxNumber
  | .number none | .str none | .eof => False

/-- A piece is `taken` off the front of a text. -/
structure Piece.Cuts (p : Piece) (taken text : List Char) : Prop where
  text : text = taken ++ p.rest
  len : p.len = byteLength taken
  fits : ∀ k ∈ p.kind?, k.Fits taken

theorem closeComment_cuts {len : Nat} {cs : List Char} {p : Piece} (h : closeComment len cs = .ok p) :
    ∃ taken, cs = taken ++ p.rest ∧ p.len = len + byteLength taken ∧ p.kind? = none := by
  fun_induction closeComment len cs with
  | case1 len cs =>
    cases h
    exact ⟨['*', '/'], rfl, rfl, rfl⟩
  | case2 len c cs _ ih =>
    obtain ⟨taken, rfl, hl, hk⟩ := ih h
    exact ⟨c :: taken, rfl, by rw [hl, byteLength_cons, Nat.add_assoc], hk⟩
  | case3 => cases h

theorem closeString_cuts {len : Nat} {acc cs : List Char} {p : Piece} (h : closeString len acc cs = .ok p) :
    ∃ taken t, cs = taken ++ p.rest ∧ p.len = len + byteLength taken ∧ p.kind? = some (.str (some t)) := by
  fun_induction closeString len acc cs with
  | case1 len acc cs =>
    cases h
    exact ⟨['"'], _, rfl, rfl, rfl⟩
  | case4 len acc e cs c _ ih =>
    obtain ⟨taken, t, rfl, hl, hk⟩ := ih h
    refine ⟨'\\' :: e :: taken, t, rfl, ?_, hk⟩
    have hb : '\\'.utf8Size = 1 := rfl
    rw [hl, byteLength_cons, byteLength_cons, hb]
    omega
  | case6 len acc c cs _ _ _ _ ih =>
    obtain ⟨taken, t, rfl, hl, hk⟩ := ih h
    exact ⟨c :: taken, t, rfl, by rw [hl, byteLength_cons, Nat.add_assoc], hk⟩
  | case2 | case3 | case5 | case7 => cases h

theorem takeNumber_cuts {c : Char} {cs : List Char} {p : Piece} (hc : c.isDigit) (h : takeNumber c cs = .ok p) :
    ∃ taken, p.Cuts taken (c :: cs) := by
  unfold takeNumber at h
  dsimp only at h
  split at h
  · cases h
  split at h
  · cases h
  cases h
  refine ⟨c :: cs.takeWhile Char.isDigit, by simp, ?_, ?_⟩
  · refine (byteLength_of_ascii fun d hd => utf8Size_of_isDigit ?_).symm
    rcases List.mem_cons.1 hd with rfl | hd
    · exact hc
    · exact List.all_eq_true.1 List.all_takeWhile d hd
  · rintro k ⟨⟩
    exact ⟨Int.natCast_nonneg _, Int.ofNat_le.2 (Nat.le_of_not_lt ‹_›)⟩

theorem takeWord_cuts {c : Char} {cs : List Char} (hc : isWordStart c) :
    ∃ taken, (takeWord c cs).Cuts taken (c :: cs) := by
  have hw : ∀ d ∈ cs.takeWhile isWordChar, isWordChar d := List.all_eq_true.1 List.all_takeWhile
  refine ⟨c :: cs.takeWhile isWordChar, by simp [takeWord], ?_, ?_⟩
  · refine (byteLength_of_ascii fun d hd => utf8Size_of_isWordChar ?_).symm
    rcases List.mem_cons.1 hd with rfl | hd
    · exact isWordChar_of_isWordStart hc
    · exact hw d hd
  · rintro k ⟨⟩
    split
    · exact List.contains_iff_mem.1 ‹_›
    · refine ⟨c, _, String.toList_ofList, isWordStart_iff.1 hc, fun d hd => isWordChar_iff.1 (hw d hd), ?_⟩
      rename_i hk
      exact fun hm => hk (List.contains_iff_mem.2 hm)

theorem utf8Size_of_mem_singleMarks {c : Char} (h : c ∈ singleMarks) : c.utf8Size = 1 := by
  have all : singleMarks.all (·.utf8Size == 1) = true := by decide
  simpa using List.all_eq_true.1 all c h

theorem utf8Size_of_mem_doubleMarks {m : Char × Char} (h : m ∈ doubleMarks) : m.1.utf8Size = 1 ∧ m.2.utf8Size = 1 := by
  have all : doubleMarks.all (fun m => m.1.utf8Size == 1 && m.2.utf8Size == 1) = true := by decide
  simpa using List.all_eq_true.1 all m h

theorem takeMark_cuts {c : Char} {cs : List Char} {p : Piece} (h : takeMark c cs = .ok p) :
    ∃ taken, p.Cuts taken (c :: cs) := by
  have fits {taken : List Char} (hm : String.ofList taken ∈ marks) : ∀ k ∈ some Kind.mark, k.Fits taken := by
    rintro k ⟨⟩
    exact hm
  have single (hm : c ∈ singleMarks) : String.ofList [c] ∈ marks :=
    List.mem_append_right _ (List.mem_map_of_mem hm)
  unfold takeMark at h
  split at h
  · rename_i d cs
    split at h
    · rename_i hm
      rw [List.contains_iff_mem] at hm
      obtain ⟨hc, hd⟩ := utf8Size_of_mem_doubleMarks hm
      cases h
      exact ⟨[c, d], rfl, by simp_all, fits (List.mem_append_left _ (List.mem_map.2 ⟨_, hm, rfl⟩))⟩
    split at h
    · rename_i hm
      rw [List.contains_iff_mem] at hm
      cases h
      exact ⟨[c], rfl, by simp [utf8Size_of_mem_singleMarks hm], fits (single hm)⟩
    · cases h
  · split at h
    · rename_i hm
      rw [List.contains_iff_mem] at hm
      cases h
      exact ⟨[c], rfl, by simp [utf8Size_of_mem_singleMarks hm], fits (single hm)⟩
    · cases h

theorem utf8Size_of_isBlank {c : Char} (h : isBlank c) : c.utf8Size = 1 := by
  simp only [isBlank, Bool.or_eq_true, beq_iff_eq] at h
  rcases h with (((rfl | rfl) | rfl) | rfl) | rfl <;> decide

theorem munch_cuts {c : Char} {cs : List Char} {p : Piece} (h : munch c cs = .ok p) :
    ∃ taken, p.Cuts taken (c :: cs) := by
  have gap {taken : List Char} : ∀ k ∈ (none : Option Kind), k.Fits taken := by
    rintro k ⟨⟩
  have slash : '/'.utf8Size = 1 := rfl
  unfold munch at h
  split at h
  · rename_i hb
    cases h
    exact ⟨[c], rfl, by simp [utf8Size_of_isBlank hb], gap⟩
  split at h
  · rename_i hc
    simp only [Bool.and_eq_true, beq_iff_eq] at hc
    obtain ⟨rfl, -⟩ := hc
    cases h
    exact ⟨'/' :: cs.takeWhile (· ≠ '\n'), by simp, by simp [slash], gap⟩
  split at h
  · rename_i hc
    simp only [Bool.and_eq_true, beq_iff_eq] at hc
    obtain ⟨rfl, hs⟩ := hc
    obtain ⟨cs, rfl⟩ := List.head?_eq_some_iff.1 hs
    obtain ⟨taken, ht, hl, hk⟩ := closeComment_cuts h
    refine ⟨'/' :: '*' :: taken, by simpa using ht, ?_, by rw [hk]; exact gap⟩
    have star : '*'.utf8Size = 1 := rfl
    rw [hl, byteLength_cons, byteLength_cons, slash, star]
    omega
  split at h
  · exact takeNumber_cuts ‹_› h
  split at h
  · cases h
    exact takeWord_cuts ‹_›
  split at h
  · rename_i hq
    obtain rfl := beq_iff_eq.1 hq
    obtain ⟨taken, t, rfl, hl, hk⟩ := closeString_cuts h
    refine ⟨'"' :: taken, rfl, by rw [hl, byteLength_cons]; rfl, ?_⟩
    rw [hk]
    rintro k ⟨⟩
    trivial
  · exact takeMark_cuts h

/-! ## The symbols of a text -/

/-- The symbols of the tokens before the end of the source. -/
def symbols? (source : String) : List Token → Option (List Symbol)
  | [] => none
  | t :: tokens =>
    if t.kind = .eof then some []
    else (t.lexeme source).symbol?.bind fun s => (symbols? source tokens).map (s :: ·)

/-- The symbols of a text, found by taking off one piece after the other. -/
inductive Scans : List Char → List Symbol → Prop
  | nil : Scans [] []
  | gap {c : Char} {cs : List Char} {p : Piece} {ss : List Symbol} :
      munch c cs = .ok p → p.kind? = none → Scans p.rest ss → Scans (c :: cs) ss
  | token {c : Char} {cs taken : List Char} {p : Piece} {k : Kind} {s : Symbol} {ss : List Symbol} :
      munch c cs = .ok p → p.kind? = some k → c :: cs = taken ++ p.rest →
        k.symbol? (some (String.ofList taken)) = some s → Scans p.rest ss → Scans (c :: cs) (s :: ss)

theorem text?_of_toList {source : String} {before taken rest : List Char} (h : source.toList = before ++ taken ++ rest)
    (k : Kind) : text? source ⟨k, byteLength before, byteLength taken⟩ = some (String.ofList taken) := by
  refine Text.slice?_eq_some_iff.2 ⟨String.ofList before, String.ofList rest, ?_, utf8ByteSize_ofList _, ?_⟩
  · rw [← String.toList_inj, h]
    simp
  · rw [String.utf8ByteSize_append, utf8ByteSize_ofList, utf8ByteSize_ofList]

theorem scanFrom_gap {off : Nat} {acc : Array Token} {c : Char} {cs : List Char} {p : Piece} (h : munch c cs = .ok p)
    (hk : p.kind? = none) : scanFrom off acc (c :: cs) = scanFrom (off + p.len) acc p.rest := by
  rw [scanFrom]
  split
  · simp_all
  · rename_i p' h'
    cases h.symm.trans h'
    simp only [hk]

theorem scanFrom_token {off : Nat} {acc : Array Token} {c : Char} {cs : List Char} {p : Piece} {k : Kind}
    (h : munch c cs = .ok p) (hk : p.kind? = some k) :
    scanFrom off acc (c :: cs) = scanFrom (off + p.len) (acc.push ⟨k, off, p.len⟩) p.rest := by
  rw [scanFrom]
  split
  · simp_all
  · rename_i p' h'
    cases h.symm.trans h'
    simp only [hk]

theorem ne_eof_of_symbol? {k : Kind} {t : Option String} {s : Symbol} (h : k.symbol? t = some s) : k ≠ .eof := by
  rintro rfl
  cases h

/-- A text with symbols is scanned, and its tokens have these symbols. -/
theorem Scans.scanFrom {cs : List Char} {ss : List Symbol} (h : Scans cs ss) (source : String) (before : List Char)
    (acc : Array Token) (hs : source.toList = before ++ cs) :
    ∃ tokens, scanFrom (byteLength before) acc cs = .ok (acc ++ tokens.toArray) ∧ symbols? source tokens = some ss := by
  induction h generalizing before acc with
  | nil => exact ⟨[⟨.eof, _, 0⟩], by rw [Token.scanFrom, Array.push_eq_append], rfl⟩
  | @gap c cs p ss hm hk _ ih =>
    obtain ⟨taken, ht, hl, -⟩ := munch_cuts hm
    obtain ⟨tokens, hscan, hsym⟩ := ih (before ++ taken) acc (by rw [hs, ht, List.append_assoc])
    refine ⟨tokens, ?_, hsym⟩
    rw [scanFrom_gap hm hk, hl, ← byteLength_append]
    exact hscan
  | @token c cs taken p k s ss hm hk ht hsym _ ih =>
    obtain ⟨taken', ht', hl, -⟩ := munch_cuts hm
    obtain rfl : taken' = taken := List.append_cancel_right (ht'.symm.trans ht)
    rw [ht, ← List.append_assoc] at hs
    obtain ⟨tokens, hscan, hrest⟩ := ih (before ++ taken') (acc.push ⟨k, byteLength before, p.len⟩) hs
    refine ⟨⟨k, byteLength before, p.len⟩ :: tokens, ?_, ?_⟩
    · rw [scanFrom_token hm hk, hl, ← byteLength_append, ← hl, hscan, Array.push_eq_append, Array.append_assoc]
      simp
    · have found : (lexeme source ⟨k, byteLength before, p.len⟩).symbol? = some s := by
        rw [Lexeme.symbol?, lexeme, hl, text?_of_toList hs]
        exact hsym
      rw [symbols?, if_neg (ne_eof_of_symbol? hsym), found, hrest]
      rfl

theorem Kind.Fits.symbol? {taken : List Char} {k : Kind} (h : k.Fits taken) (t : String) :
    ∃ s, k.symbol? (some t) = some s := by
  unfold Kind.Fits at h
  split at h
  all_goals first | exact h.elim | exact ⟨_, rfl⟩

/-- A text that is scanned has symbols. -/
theorem scans_of_scanFrom {off : Nat} {acc tokens : Array Token} {cs : List Char}
    (h : scanFrom off acc cs = .ok tokens) :
    ∃ ss, Scans cs ss := by
  fun_induction scanFrom off acc cs with
  | case1 off acc => exact ⟨[], .nil⟩
  | case2 off acc c cs m hm => cases h
  | case3 off acc c cs p hm _ ih =>
    obtain ⟨ss, hss⟩ := ih h
    obtain ⟨taken, ht, -, hf⟩ := munch_cuts hm
    cases hk : p.kind? with
    | none => exact ⟨ss, .gap hm hk hss⟩
    | some k =>
      obtain ⟨s, hs⟩ := (hf k hk).symbol? (String.ofList taken)
      exact ⟨s :: ss, .token hm hk ht hs hss⟩

/-- A source text that is scanned has symbols, and its tokens have these. -/
theorem scan_eq_ok {source : String} {tokens : List Token} (h : scan source = .ok tokens) :
    ∃ ss, Scans source.toList ss ∧ symbols? source tokens = some ss := by
  unfold scan at h
  split at h
  · rename_i tokens' hscan
    cases h
    obtain ⟨ss, hss⟩ := scans_of_scanFrom hscan
    obtain ⟨new, hnew, hsym⟩ := hss.scanFrom source [] #[] rfl
    cases hscan.symm.trans hnew
    exact ⟨ss, hss, by simpa using hsym⟩
  · cases h

theorem Scans.scan {source : String} {ss : List Symbol} (h : Scans source.toList ss) :
    ∃ tokens, scan source = .ok tokens ∧ symbols? source tokens = some ss := by
  obtain ⟨tokens, hscan, hsym⟩ := h.scanFrom source [] #[] rfl
  refine ⟨tokens, ?_, hsym⟩
  rw [Token.scan, show Token.scanFrom 0 #[] source.toList = _ from hscan]
  simp

/-! ## What a text can hold -/

/-- The symbols that stand for tokens of a text. -/
def Lexical : Symbol → Prop
  | .mark m => m ∈ marks
  | .keyword w => w ∈ keywords
  | .ident name => IsName name
  | .number v => 0 ≤ v ∧ v ≤ maxNumber
  | .str _ => True

theorem Kind.Fits.lexical {taken : List Char} {k : Kind} {s : Symbol} (h : k.Fits taken)
    (hs : k.symbol? (some (String.ofList taken)) = some s) : Lexical s := by
  unfold Kind.Fits at h
  split at h
  all_goals first | exact h.elim | (cases hs; exact h)

theorem Scans.lexical {cs : List Char} {ss : List Symbol} (h : Scans cs ss) : ∀ s ∈ ss, Lexical s := by
  induction h with
  | nil => simp
  | gap _ _ _ ih => exact ih
  | @token c cs taken p k s ss hm hk ht hs _ ih =>
    obtain ⟨taken', ht', -, hf⟩ := munch_cuts hm
    obtain rfl : taken' = taken := List.append_cancel_right (ht'.symm.trans ht)
    exact List.forall_mem_cons.2 ⟨(hf k hk).lexical hs, ih⟩

end DotCom.Token
