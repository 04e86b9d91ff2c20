/-
  DotCom.Proofs.Parsing.Places — reading does not look at where tokens stand. A place only tells a
  diagnostic where it points.

  - `Reader.Mirrors`: two readers on tokens of two texts that agree in kinds and texts. Either both
    succeed, with related results and tokens left that agree again, or both fail, with the same
    cause and each with an excerpt of its own text.
  - `Reader.Mirrors.functions`: the readers of the grammar mirror themselves.
  - `Program.ofTokens_alike`: so a program is read off the one text as it is off the other.
-/

import DotCom.Proofs.Parsing.Programs
import Mathlib.Data.List.Forall2

namespace DotCom

/-- Failures that differ in their excerpts at most. -/
inductive Failure.Alike : Failure → Failure → Prop
  | crashed : Alike .crashed .crashed
  | located (place place' : Text.Excerpt) (cause : SyntaxError) :
      Alike (.rejected (.located place cause)) (.rejected (.located place' cause))

/-- Two texts read side by side, with one limit for both. -/
structure Twins where
  left : String
  right : String
  limit : Nat

namespace Twins

/-- Both offsets lie between characters of their texts, or neither does. -/
def Places (t : Twins) (n n' : Nat) : Prop := (Text.Excerpt.at? t.left n).isSome = (Text.Excerpt.at? t.right n').isSome

/-- Tokens that differ in their spans only. -/
structure Lexemes (t : Twins) (l l' : Lexeme) : Prop where
  kind : l.token.kind = l'.token.kind
  text : l.text? = l'.text?
  place : t.Places l.token.loc l'.token.loc

variable {t : Twins}

theorem alike_at {n n' : Nat} (h : t.Places n n') (cause : SyntaxError) :
    (Failure.at t.left n cause).Alike (Failure.at t.right n' cause) := by
  unfold Places at h
  unfold Failure.at
  cases hn : Text.Excerpt.at? t.left n with
  | some place =>
    rw [hn] at h
    obtain ⟨place', hn'⟩ := Option.isSome_iff_exists.1 h.symm
    rw [hn']
    exact .located ..
  | none =>
    rw [hn] at h
    rw [Option.not_isSome_iff_eq_none.1 (Bool.eq_false_iff.1 h.symm)]
    exact .crashed

theorem places_end (t : Twins) : t.Places t.left.utf8ByteSize t.right.utf8ByteSize := by
  have found (s : String) : (Text.Excerpt.at? s s.utf8ByteSize).isSome = true := by
    rw [Text.Excerpt.at?, Nat.min_self, Text.splitAt?_eq_some_iff.2 ⟨(String.append_empty (s := s)).symm, rfl⟩]
    rfl
  exact (found _).trans (found _).symm

end Twins

namespace Reader

variable {α β γ δ σ : Type} {t : Twins} {R : α → β → Prop} {Q : γ → δ → Prop}

/-- Results of reading that are related, with tokens left that agree; or failures that do. -/
inductive Outcomes (t : Twins) (R : α → β → Prop) :
    Except Halt (α × List Lexeme) → Except Halt (β × List Lexeme) → Prop
  | ok {a : α} {b : β} {rest rest' : List Lexeme} :
      R a b → List.Forall₂ t.Lexemes rest rest' → Outcomes t R (.ok (a, rest)) (.ok (b, rest'))
  | error {h h' : Halt} : h.failure.Alike h'.failure → Outcomes t R (.error h) (.error h')

/-- Two readers do the same on tokens that differ in their spans only. -/
def Mirrors (t : Twins) (R : α → β → Prop) (x : Reader α) (y : Reader β) : Prop :=
  ∀ ls ls', List.Forall₂ t.Lexemes ls ls' → Outcomes t R (x ⟨t.left, t.limit⟩ ls) (y ⟨t.right, t.limit⟩ ls')

namespace Mirrors

variable {x : Reader α} {y : Reader β}

theorem pure {a : α} {b : β} (h : R a b) : Mirrors t R (pure a) (pure b) := fun _ _ hls => .ok h hls

theorem same (a : α) : Mirrors t Eq (Pure.pure a) (Pure.pure a) := pure rfl

theorem bind {f : α → Reader γ} {g : β → Reader δ} (hx : Mirrors t R x y)
    (hf : ∀ a b, R a b → Mirrors t Q (f a) (g b)) :
    Mirrors t Q (x >>= f) (y >>= g) := by
  intro ls ls' hls
  have first := hx ls ls' hls
  change Outcomes t Q ((x _ ls).bind fun out => f out.1 _ out.2) ((y _ ls').bind fun out => g out.1 _ out.2)
  generalize x _ ls = left at first ⊢
  generalize y _ ls' = right at first ⊢
  cases first with
  | ok hr hrest => exact hf _ _ hr _ _ hrest
  | error he => exact .error he

/-- Sequencing after a reader that gives one and the same result. -/
theorem seq {z : Reader σ} {f : σ → Reader γ} {g : σ → Reader δ} (hz : Mirrors t Eq z z)
    (hf : ∀ a, Mirrors t Q (f a) (g a)) :
    Mirrors t Q (z >>= f) (z >>= g) := by
  refine bind hz fun a b e => ?_
  subst e
  exact hf a

theorem ite {c : Prop} [Decidable c] {x' : Reader α} {y' : Reader β} (hx : Mirrors t R x y) (hy : Mirrors t R x' y') :
    Mirrors t R (if c then x else x') (if c then y else y') := by
  split
  · exact hx
  · exact hy

theorem crash : Mirrors t R crash crash := fun _ _ _ => .error .crashed

theorem failAt {n n' : Nat} (h : t.Places n n') (cause : SyntaxError) :
    Mirrors t R (failAt n cause) (failAt n' cause) :=
  fun _ _ _ => .error (Twins.alike_at h cause)

/-- The next tokens differ in their spans only, or there are none. -/
theorem peek {f : Option Lexeme → Reader α} {g : Option Lexeme → Reader β} (none : Mirrors t R (f none) (g none))
    (some : ∀ k text? n n' len len', t.Places n n' →
      Mirrors t R (f (some ⟨⟨k, n, len⟩, text?⟩)) (g (some ⟨⟨k, n', len'⟩, text?⟩))) :
    Mirrors t R (peek? >>= f) (peek? >>= g) := by
  intro ls ls' hls
  cases hls with
  | nil => exact none [] [] .nil
  | @cons l l' ls ls' h hls =>
    rcases l with ⟨⟨k, n, len⟩, text?⟩
    rcases l' with ⟨⟨k', n', len'⟩, text?'⟩
    obtain ⟨rfl, rfl, hn⟩ := h
    exact some k text? n n' len len' hn _ _ (.cons ⟨rfl, rfl, hn⟩ hls)

theorem text (text? : Option String) (l l' : Token) : Mirrors t Eq (text ⟨l, text?⟩) (text ⟨l', text?⟩) := by
  cases text? with
  | some s => exact same s
  | none => exact crash

theorem advance : Mirrors t Eq advance advance := by
  intro ls ls' hls
  cases hls with
  | nil => exact .error .crashed
  | cons _ hls => exact .ok rfl hls

theorem loc : Mirrors t t.Places loc loc :=
  peek (pure t.places_end) fun _ _ _ _ _ _ h => pure h

theorem failHere (cause : String → SyntaxError) : Mirrors t R (failHere cause) (failHere cause) := by
  have last (got : String) : Mirrors t R (do Reader.failAt (← Reader.loc) (cause got))
      (do Reader.failAt (← Reader.loc) (cause got)) := bind loc fun _ _ h => failAt h _
  refine peek (last "EOF") fun k text? n n' len len' _ => ?_
  have same : Lexeme.describe? (some ⟨⟨k, n, len⟩, text?⟩) = Lexeme.describe? (some ⟨⟨k, n', len'⟩, text?⟩) := rfl
  rw [same]
  cases Lexeme.describe? (some ⟨⟨k, n', len'⟩, text?⟩) with
  | some got => exact last got
  | none => exact crash

/-- Loops whose laps mirror each other do so, since they have the same number of laps. -/
theorem iterate {step : σ → Reader (σ ⊕ γ)} (hs : ∀ s, Mirrors t Eq (step s) (step s)) (s : σ) :
    Mirrors t Eq (iterate step s) (iterate step s) := by
  have laps : ∀ n s, Mirrors t Eq (repeatAtMost step n s) (repeatAtMost step n s) := by
    intro n
    induction n with
    | zero => exact fun _ => crash
    | succ n ih =>
      refine fun s => seq (hs s) fun out => ?_
      cases out with
      | inl s => exact ih s
      | inr b => exact same b
  exact laps t.limit s

/-! ## Taking tokens -/

theorem mark? : Mirrors t Eq mark? mark? :=
  peek (same _) fun _ text? _ _ _ _ _ => ite (bind (text text? _ _) fun _ _ e => pure (congrArg some e)) (same _)

theorem atMark (m : String) : Mirrors t Eq (atMark m) (atMark m) := seq mark? fun _ => same _

theorem atKeyword (w : String) : Mirrors t Eq (atKeyword w) (atKeyword w) :=
  peek (same _) fun _ text? _ _ _ _ _ => ite (bind (text text? _ _) fun _ _ e => pure (congrArg (· == w) e)) (same _)

theorem atEnd : Mirrors t Eq atEnd atEnd := peek (same _) fun _ _ _ _ _ _ _ => same _

theorem acceptMark (m : String) : Mirrors t Eq (acceptMark m) (acceptMark m) :=
  seq (atMark m) fun _ => ite (seq advance fun _ => same _) (same _)

theorem acceptKeyword (w : String) : Mirrors t Eq (acceptKeyword w) (acceptKeyword w) :=
  seq (atKeyword w) fun _ => ite (seq advance fun _ => same _) (same _)

theorem expectMark (m : String) : Mirrors t Eq (expectMark m) (expectMark m) :=
  seq (acceptMark m) fun _ => ite (same _) (failHere _)

theorem identifier : Mirrors t Eq identifier identifier := by
  refine peek (failHere _) fun _ text? _ _ _ _ _ => ite ?_ (failHere _)
  exact bind (text text? _ _) fun _ _ e => seq advance fun _ => pure e

theorem literal : Mirrors t Eq literal literal := by
  refine peek (failHere _) fun k text? n n' len len' h => ?_
  cases k with
  | ident => exact seq identifier fun _ => same _
  | str contents? =>
    cases contents? with
    | some s => exact seq advance fun _ => same _
    | none => exact failAt h _
  | number value? =>
    cases value? with
    | some v => exact seq advance fun _ => same _
    | none => exact failAt h _
  | mark | keyword | eof => exact failHere _

theorem listed {item : Reader σ} (hi : Mirrors t Eq item item) : Mirrors t Eq (listed item) (listed item) := by
  have next : ∀ items, Mirrors t Eq (nextItem item items) (nextItem item items) := fun items =>
    seq hi fun _ => seq (acceptMark ")") fun _ => ite (same _) (seq (expectMark ",") fun _ => same _)
  exact seq (acceptMark ")") fun _ => ite (same _) (seq (iterate next #[]) fun _ => same _)

/-! ## Phrases -/

theorem type : Mirrors t Eq type type := by
  have base : Mirrors t Eq baseType baseType :=
    seq (acceptKeyword "int") fun _ => ite (same _) (seq (acceptKeyword "char") fun _ => ite (same _) (failHere _))
  refine seq base fun ty => iterate (fun ty => ?_) ty
  refine seq (acceptMark "*") fun _ => ite ?_ (same _)
  cases ty.pointer? with
  | some ty => exact same _
  | none => exact crash

theorem postfixed {expr : Reader Expr} (he : Mirrors t Eq expr expr) :
    Mirrors t Eq (postfixed expr) (postfixed expr) := by
  have primary : Mirrors t Eq (primary expr) (primary expr) :=
    seq (acceptMark "(") fun _ => ite (seq he fun _ => seq (expectMark ")") fun _ => same _) literal
  refine seq primary fun node => iterate (fun node => ?_) node
  refine bind loc fun here here' h => seq (acceptMark "(") fun _ => ite ?_ ?_
  · cases node with
    | ident callee => exact seq (listed he) fun _ => same _
    | _ => exact failAt h _
  · exact seq (acceptMark "[") fun _ => ite (seq he fun _ => seq (expectMark "]") fun _ => same _) (same _)

theorem joined {operand : Reader Expr} (ho : Mirrors t Eq operand operand) (levels : List (List BinaryOp)) :
    Mirrors t Eq (joined operand levels) (joined operand levels) := by
  induction levels with
  | nil => exact ho
  | cons ops tighter ih =>
    refine seq ih fun _ => seq (iterate (fun tail => ?_) #[]) fun _ => same _
    refine seq mark? fun m => ?_
    cases m.bind fun symbol => ops.find? (·.symbol == symbol) with
    | some op => exact seq advance fun _ => seq ih fun _ => same _
    | none => exact same _

theorem assignment {side : Reader Expr} (hs : Mirrors t Eq side side) :
    Mirrors t Eq (assignment side) (assignment side) := by
  refine bind loc fun start start' h => seq hs fun left => seq (acceptMark "=") fun _ => ite ?_ (same _)
  cases left with
  | ident target =>
    exact seq hs fun _ => seq (atMark "=") fun _ => ite (seq (failHere _) fun _ => same _) (same _)
  | _ => exact failAt h _

theorem expr : Mirrors t Eq expr expr := by
  have nested (n : Nat) : Mirrors t Eq (nestedExpr n) (nestedExpr n) := by
    induction n with
    | zero => exact crash
    | succ n ih => exact assignment (joined (postfixed ih) _)
  exact nested t.limit

theorem block {stmt : Reader Stmt} (hs : Mirrors t Eq stmt stmt) : Mirrors t Eq (block stmt) (block stmt) := by
  refine seq (expectMark "\x7b") fun _ => seq (iterate (fun body => ?_) #[]) fun _ => same _
  refine seq (acceptMark "\x7d") fun _ => ite (same _) (seq atEnd fun _ => ite (failHere _) ?_)
  exact seq hs fun _ => same _

theorem guarded {stmt : Reader Stmt} (hs : Mirrors t Eq stmt stmt) : Mirrors t Eq (guarded stmt) (guarded stmt) :=
  seq (expectMark "(") fun _ => seq expr fun _ => seq (expectMark ")") fun _ => seq (block hs) fun _ => same _

theorem ifChain {stmt : Reader Stmt} (hs : Mirrors t Eq stmt stmt) : Mirrors t Eq (ifChain stmt) (ifChain stmt) := by
  refine seq (iterate (fun branches => ?_) #[]) fun _ => same _
  refine seq (guarded hs) fun _ => seq (acceptKeyword "else") fun _ => ite ?_ (same _)
  exact seq (acceptKeyword "if") fun _ => ite (same _) (seq (block hs) fun _ => same _)

theorem stmt : Mirrors t Eq stmt stmt := by
  have nested (n : Nat) : Mirrors t Eq (nestedStmt n) (nestedStmt n) := by
    induction n with
    | zero => exact crash
    | succ n ih =>
      refine seq (atKeyword "int") fun _ => seq (atKeyword "char") fun _ => ite ?_ ?_
      · exact seq type fun _ => seq identifier fun _ => seq (expectMark ";") fun _ => same _
      refine seq (acceptKeyword "return") fun _ => ite ?_ ?_
      · exact seq expr fun _ => seq (expectMark ";") fun _ => same _
      refine seq (acceptKeyword "if") fun _ => ite ?_ ?_
      · exact seq (ifChain ih) fun _ => same _
      refine seq (acceptKeyword "while") fun _ => ite ?_ ?_
      · exact seq (guarded ih) fun _ => same _
      · exact seq expr fun _ => seq (expectMark ";") fun _ => same _
  exact nested t.limit

theorem functions : Mirrors t Eq functions functions := by
  have param : Mirrors t Eq param param := seq type fun _ => seq identifier fun _ => same _
  have function : Mirrors t Eq function function :=
    seq type fun _ => seq identifier fun _ => seq (expectMark "(") fun _ =>
      seq (listed param) fun _ => seq (block stmt) fun _ => same _
  refine seq (iterate (fun fs => ?_) #[]) fun _ => same _
  exact seq atEnd fun _ => ite (same _) (seq function fun _ => same _)

end Mirrors

end Reader

/-! ## Whole programs -/

/-- One and the same outcome, or failures that differ in their excerpts. -/
def SameButPlace {α : Type} (x y : Except Failure α) : Prop := x = y ∨ ∃ e e', x = .error e ∧ y = .error e' ∧ e.Alike e'

theorem Program.ofTokens_alike {source source' : String} {tokens tokens' : List Token}
    (h : List.Forall₂ (Twins.Lexemes ⟨source, source', tokens.length + 1⟩)
      (tokens.map (Token.lexeme source)) (tokens'.map (Token.lexeme source'))) :
    SameButPlace (ofTokens source tokens) (ofTokens source' tokens') := by
  have count : tokens.length = tokens'.length := by simpa using h.length_eq
  have read := Reader.Mirrors.functions _ _ h
  rw [ofTokens_eq_bind, ofTokens_eq_bind, ← count]
  generalize Reader.functions _ (tokens.map (Token.lexeme source)) = left at read ⊢
  generalize Reader.functions _ (tokens'.map (Token.lexeme source')) = right at read ⊢
  cases read with
  | ok hr _ =>
    subst hr
    exact .inl rfl
  | error he => exact .inr ⟨_, _, rfl, rfl, he⟩

end DotCom
