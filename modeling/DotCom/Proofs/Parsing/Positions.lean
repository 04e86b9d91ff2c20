/-
  DotCom.Proofs.Parsing.Positions — where the cursor is while tokens are read. The tokens need not be those of a text:
  the end may be missing or stand among others, and a number or a string may lack what it denotes. Reading still ends.
  The cursor never goes back, beyond the last token or past an end (`Token.Moves`), also where reading is refused; every
  phrase that is read moves it; and a program is read only up to an end (`Program.reading_advances`).
-/

import DotCom.Proofs.Parsing.Progress

namespace DotCom

/-- The cursor goes from one position among some tokens to another: not back, not beyond the last and past no end. -/
structure Token.Moves (tokens : List Token) (p q : Nat) : Prop where
  forward : p ≤ q
  inside : q ≤ tokens.length
  ends : ∀ i t, p ≤ i → i < q → tokens[i]? = some t → t.kind ≠ .eof

namespace Reader

variable {α β σ : Type}

/-- A reader that starts at position `p` of some tokens comes to its end. If it succeeds, the cursor is then at a
    position with `Q`; if not, it is refused, and does not crash. -/
def Advances (source : String) (tokens : List Token) (x : Reader α) (p : Nat) (Q : Nat → Prop) : Prop :=
  ∃ q, Token.Moves tokens p q ∧
    ((∃ a, x ⟨source, tokens.length + 1⟩ ((tokens.drop p).map (Token.lexeme source)) =
        .ok (a, (tokens.drop q).map (Token.lexeme source)) ∧ Q q) ∨
      ∃ e, x ⟨source, tokens.length + 1⟩ ((tokens.drop p).map (Token.lexeme source)) =
        .error ⟨e, (tokens.drop q).map (Token.lexeme source)⟩ ∧ e ≠ .crashed)

/-! ## Phrases -/

/-- The phrases of the grammar that are read by functions of their own. -/
inductive Phrase where
  | function | type | block | stmt | expr
  /-- Operands joined by the operators of a level and of all that bind tighter. -/
  | chain (level : Nat)
  | postfixed | primary

namespace Phrase

/-- What a phrase is read as. -/
def Tree : Phrase → Type
  | function => Function
  | type => Ty
  | block => List Stmt
  | stmt => Stmt
  | expr | chain _ | postfixed | primary => Expr

/-- The reader of a phrase; `n` bounds how deep statements and expressions nest inside it. -/
def reader (n : Nat) : (phrase : Phrase) → Reader phrase.Tree
  | function => Reader.function
  | type => Reader.type
  | block => Reader.block (nestedStmt (n + 1))
  | stmt => nestedStmt (n + 1)
  | expr => nestedExpr (n + 1)
  | chain level => joined (Reader.postfixed (nestedExpr n)) (BinaryOp.levels.drop level)
  | postfixed => Reader.postfixed (nestedExpr n)
  | primary => Reader.primary (nestedExpr n)

/-- A phrase takes a token at least, if it may nest as deeply as there are tokens. -/
theorem takes {r : Reading} {all : List Lexeme} (legible : Legible r all) (n : Nat) (phrase : Phrase) :
    Takes r all (n + 1) (fun _ => 1) (phrase.reader n) := by
  have operand : Takes r all (n + 1) (fun _ => 1) (Reader.postfixed (nestedExpr n)) :=
    Takes.postfixed legible (Takes.nestedExpr legible n)
  cases phrase with
  | function => exact Takes.function legible
  | type => exact Takes.type legible
  | block => exact Takes.block legible (Takes.nestedStmt legible (n + 1))
  | stmt => exact Takes.nestedStmt legible (n + 1)
  | expr => exact Takes.nestedExpr legible (n + 1)
  | chain level => exact Takes.joined legible operand _
  | postfixed => exact operand
  | primary => exact Takes.primary legible (Takes.nestedExpr legible n)

end Phrase

/-! ## Positions -/

section

variable {source : String} {tokens : List Token} {p n : Nat}

/-- Tokens that are taken, none of them an end, move the cursor by their number. -/
theorem Left.moves {rest : List Lexeme} (h : Left n ((tokens.drop p).map (Token.lexeme source)) rest)
    (inside : p ≤ tokens.length) :
    ∃ q, rest = (tokens.drop q).map (Token.lexeme source) ∧ Token.Moves tokens p q ∧ p + n ≤ q := by
  obtain ⟨taken, e, count, ends⟩ := h
  obtain ⟨before, behind, split, rfl, rfl⟩ := List.map_eq_append_iff.1 e
  rw [List.length_map] at count
  have length := congrArg List.length split
  rw [List.length_drop, List.length_append] at length
  refine ⟨p + before.length, ?_, ⟨Nat.le_add_right .., by omega, ?_⟩, Nat.add_le_add_left count p⟩
  · rw [← List.drop_drop, split, List.drop_left]
  · intro i t low high found
    have met : (before ++ behind)[i - p]? = some t := by
      rw [← split, List.getElem?_drop, Nat.add_sub_cancel' low, found]
    rw [List.getElem?_append_left (by omega)] at met
    exact ends _ (List.mem_map.2 ⟨t, List.mem_of_getElem? met, rfl⟩)

theorem Refuses.ne_crashed {r : Reading} {all : List Lexeme} {e : Failure} (h : Refuses r all e)
    (few : all.length < UInt32.size) : e ≠ .crashed := by
  rintro rfl
  obtain ⟨stars, among, count, -⟩ : Starry all := by
    cases h
    assumption
  have := among.length_le
  omega

/-- What is safe from a position advances from there. -/
theorem Safe.advances {x : Reader α} {P : α → List Lexeme → Prop} {Q : Nat → Prop} (few : tokens.length < UInt32.size)
    (inside : p ≤ tokens.length)
    (h : Safe ⟨source, tokens.length + 1⟩ (tokens.map (Token.lexeme source)) x
      ((tokens.drop p).map (Token.lexeme source)) P)
    (hQ : ∀ a q, q ≤ tokens.length → P a ((tokens.drop q).map (Token.lexeme source)) → Q q) :
    Advances source tokens x p Q := by
  rcases h with ⟨a, rest, run, left, hp⟩ | ⟨⟨e, rest⟩, run, left, refuses⟩
  · obtain ⟨q, rfl, moves, -⟩ := left.moves inside
    exact ⟨q, moves, .inl ⟨a, run, hQ a q moves.inside hp⟩⟩
  · obtain ⟨q, rfl, moves, -⟩ := Left.moves left inside
    exact ⟨q, moves, .inr ⟨e, run, refuses.ne_crashed (by rwa [List.length_map])⟩⟩

end

/-! ## The end of the functions -/

section

variable {r : Reading} {ls rest : List Lexeme}

/-- What is read by one reader after another is read by both in turn. -/
theorem of_bind_ok {x : Reader α} {f : α → Reader β} {b : β} (h : (x >>= f) r ls = .ok (b, rest)) :
    ∃ a mid, x r ls = .ok (a, mid) ∧ f a r mid = .ok (b, rest) := by
  rw [bind_run] at h
  cases first : x r ls with
  | error halt =>
    rw [first] at h
    cases h
  | ok out =>
    rw [first] at h
    exact ⟨out.1, out.2, rfl, h⟩

/-- A loop is left by a lap that is done. -/
theorem exists_last_lap {step : σ → Reader (σ ⊕ β)} {n : Nat} {s : σ} {b : β}
    (h : repeatAtMost step n s r ls = .ok (b, rest)) : ∃ s' ls', step s' r ls' = .ok (.inr b, rest) := by
  induction n generalizing s ls with
  | zero => cases h
  | succ n ih =>
    obtain ⟨lap, mid, first, further⟩ := of_bind_ok h
    cases lap with
    | inl s' => exact ih further
    | inr b' =>
      cases further
      exact ⟨s, ls, first⟩

theorem nextFunction_done {fs fs' : Array Function} (h : nextFunction fs r ls = .ok (.inr fs', rest)) :
    ∃ l behind, rest = l :: behind ∧ l.token.kind = .eof := by
  obtain ⟨ended, mid, looked, h⟩ := of_bind_ok h
  cases ended with
  | false =>
    obtain ⟨f, _, _, pushed⟩ := of_bind_ok h
    cases pushed
  | true =>
    cases h
    cases ls with
    | nil => cases looked
    | cons l behind =>
      have seen : atEnd r (l :: behind) = .ok (decide (l.token.kind = .eof), l :: behind) := rfl
      rw [seen, Except.ok.injEq, Prod.mk.injEq, decide_eq_true_iff] at looked
      exact ⟨l, behind, looked.2.symm, looked.1⟩

theorem functions_done {fs : List Function} (h : functions r ls = .ok (fs, rest)) :
    ∃ l behind, rest = l :: behind ∧ l.token.kind = .eof := by
  obtain ⟨fs', mid, looped, kept⟩ := of_bind_ok h
  cases kept
  obtain ⟨_, _, last⟩ := exists_last_lap (show repeatAtMost nextFunction r.limit #[] r ls = _ from looped)
  exact nextFunction_done last

end

end Reader

/-! ## Whole programs -/

namespace Program

variable {source : String} {tokens : List Token}

theorem advances_phrase (slices : ∀ t ∈ tokens, ∃ text, t.text? source = some text) (few : tokens.length < UInt32.size)
    (phrase : Reader.Phrase) {n p : Nat} (inside : p ≤ tokens.length) (deep : tokens.length ≤ p + n) :
    Reader.Advances source tokens (phrase.reader n) p (p < ·) := by
  have legible := Reader.legible_of_text? slices
  have suffix := (List.drop_suffix p tokens).map (Token.lexeme source)
  have safe := phrase.takes legible n _ suffix (by rw [List.length_map, List.length_drop]; omega)
  refine safe.advances few inside fun _ q inside' left => ?_
  have shorter : ((tokens.drop q).map (Token.lexeme source)).length + 1 ≤ _ := left.length
  rw [List.length_map, List.length_map, List.length_drop, List.length_drop] at shorter
  omega

theorem advances_functions (slices : ∀ t ∈ tokens, ∃ text, t.text? source = some text)
    (few : tokens.length < UInt32.size) :
    Reader.Advances source tokens Reader.functions 0 fun q => ∃ t, tokens[q]? = some t ∧ t.kind = .eof := by
  have legible := Reader.legible_of_text? slices
  have safe := Reader.Takes.functions legible (tokens.map (Token.lexeme source)) List.suffix_rfl (Nat.lt_succ_self _)
  have stops : Reader.Safe ⟨source, tokens.length + 1⟩ (tokens.map (Token.lexeme source)) Reader.functions
      (tokens.map (Token.lexeme source)) fun _ rest => ∃ l behind, rest = l :: behind ∧ l.token.kind = .eof := by
    rcases safe with ⟨fs, rest, run, left, -⟩ | refused
    · exact .inl ⟨fs, rest, run, left, Reader.functions_done run⟩
    · exact .inr refused
  refine Reader.Safe.advances few (Nat.zero_le _) stops fun _ q _ last => ?_
  obtain ⟨l, behind, e, eof⟩ := last
  obtain ⟨t, more, split, rfl, -⟩ := List.map_eq_cons_iff.1 e
  refine ⟨t, ?_, eof⟩
  have met : (tokens.drop q)[0]? = some t := by rw [split]; rfl
  rwa [List.getElem?_drop] at met

/-- Reading ends on all tokens whose spans are slices of the source and of which there are fewer than 2³². Wherever a
    phrase is read, it takes a token at least or is refused. The functions are read up to an end or are refused. Neither
    crashes, and the cursor never goes back, beyond the last token or past an end. So a program is read only if there is
    an end, and then up to the first. -/
theorem reading_advances (slices : ∀ t ∈ tokens, ∃ text, t.text? source = some text)
    (few : tokens.length < UInt32.size) :
    (∀ (phrase : Reader.Phrase) (n p : Nat), p ≤ tokens.length → tokens.length ≤ p + n →
      Reader.Advances source tokens (phrase.reader n) p (p < ·)) ∧
    Reader.Advances source tokens Reader.functions 0 (fun q => ∃ t, tokens[q]? = some t ∧ t.kind = .eof) ∧
    ofTokens source tokens ≠ .error .crashed ∧
    (∀ program, ofTokens source tokens = .ok program → ∃ q t, Token.Moves tokens 0 q ∧ tokens[q]? = some t ∧
      t.kind = .eof ∧ Reader.functions ⟨source, tokens.length + 1⟩ (tokens.map (Token.lexeme source)) =
        .ok (program.functions, (tokens.drop q).map (Token.lexeme source))) ∧
    ((∀ t ∈ tokens, t.kind ≠ .eof) → ∃ error, ofTokens source tokens = .error (.rejected error)) := by
  have read := advances_functions slices few
  refine ⟨fun phrase n p inside deep => advances_phrase slices few phrase inside deep, read, ?_⟩
  rw [ofTokens_eq_bind]
  obtain ⟨q, moves, ⟨fs, run, t, found, eof⟩ | ⟨e, run, sound⟩⟩ := read
  · rw [show Reader.functions _ (tokens.map (Token.lexeme source)) = _ from run]
    refine ⟨fun crashed => ?_, fun program same => ?_, fun endless => ?_⟩
    · cases crashed
    · cases same
      exact ⟨q, t, moves, found, eof, rfl⟩
    · exact absurd eof (endless t (List.mem_of_getElem? found))
  · rw [show Reader.functions _ (tokens.map (Token.lexeme source)) = _ from run]
    refine ⟨fun crashed => ?_, fun program same => ?_, fun _ => ?_⟩
    · cases crashed
      exact sound rfl
    · cases same
    · cases e with
      | rejected error => exact ⟨error, rfl⟩
      | crashed => exact absurd rfl sound

/-- An end in the middle: what stands behind it, a number without a value, is not read. Without an end the same
    function is refused. -/
theorem reading_advances_to_first_end :
    let before : List Token :=
      [⟨.keyword, 0, 3⟩, ⟨.ident, 4, 1⟩, ⟨.mark, 5, 1⟩, ⟨.mark, 6, 1⟩, ⟨.mark, 7, 1⟩, ⟨.mark, 8, 1⟩]
    let behind : List Token := [⟨.eof, 9, 0⟩, ⟨.number none, 0, 3⟩]
    (∀ t ∈ before ++ behind, ∃ text, t.text? "int f()\x7b\x7d" = some text) ∧
    ofTokens "int f()\x7b\x7d" (before ++ behind) = .ok ⟨[⟨"f", .int, [], []⟩]⟩ ∧
    (∃ q t, Token.Moves (before ++ behind) 0 q ∧ (before ++ behind)[q]? = some t ∧ t.kind = .eof) ∧
    ∃ error, ofTokens "int f()\x7b\x7d" before = .error (.rejected error) := by
  intro before behind
  have slices : ∀ t ∈ before ++ behind, ∃ text, t.text? "int f()\x7b\x7d" = some text := by
    have shown : ∀ t ∈ before ++ behind, (t.text? "int f()\x7b\x7d").isSome := by decide +kernel
    exact fun t ht => Option.isSome_iff_exists.1 (shown t ht)
  have read : ofTokens "int f()\x7b\x7d" (before ++ behind) = .ok ⟨[⟨"f", .int, [], []⟩]⟩ := rfl
  obtain ⟨q, t, moves, found, eof, -⟩ := (reading_advances slices (by decide)).2.2.2.1 _ read
  have endless : ∀ t ∈ before, t.kind ≠ .eof := by decide
  refine ⟨slices, read, ⟨q, t, moves, found, eof⟩, ?_⟩
  exact (reading_advances (fun t ht => slices t (List.mem_append_left _ ht)) (by decide)).2.2.2.2 endless

end Program

end DotCom
