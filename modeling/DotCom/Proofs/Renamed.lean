/-
  DotCom.Proofs.Renamed — programs of one shape that differ in their names. Functions correspond one
  to one and in each function its variables; return types and parameters do not matter, and of the
  type of a variable it matters only whether it has a size.

  - `OneToOne`: a correspondence of names. It need say nothing about names that do not occur.
  - `lookup_eq`: tables whose names correspond answer alike.
  - `Function.Renamed.refl`: a function is a renaming of itself.
-/

import DotCom.Program
import Mathlib.Data.List.Forall2

namespace DotCom

/-! ## Correspondences of names -/

/-- No name corresponds to two. -/
def OneToOne (R : String → String → Prop) : Prop := ∀ ⦃a b a' b'⦄, R a b → R a' b' → (a = a' ↔ b = b')

theorem OneToOne.eq : OneToOne Eq := by
  rintro a _ a' _ rfl rfl
  exact Iff.rfl

/-- The entries of two tables are the same but for their names, which correspond. -/
def Keyed (R : String → String → Prop) : List (String × UInt16) → List (String × UInt16) → Prop :=
  List.Forall₂ fun s t => R s.1 t.1 ∧ s.2 = t.2

theorem lookup_eq {R : String → String → Prop} (hR : OneToOne R) {l m : List (String × UInt16)} (h : Keyed R l m)
    {a b : String} (hab : R a b) : l.lookup a = m.lookup b := by
  induction h with
  | nil => rfl
  | @cons s t l m hst _ ih =>
    obtain ⟨k, v⟩ := s
    obtain ⟨k', v'⟩ := t
    obtain ⟨hk, rfl : v = v'⟩ := hst
    have same : (a == k) = (b == k') := Bool.eq_iff_iff.2 (by simpa using hR hab hk)
    rw [List.lookup_cons, List.lookup_cons, same, ih]

/-! ## Trees -/

/-- Expressions that differ in their names only. Names of functions correspond by `F` and names of
    variables by `V`. -/
inductive Expr.Renamed (F V : String → String → Prop) : Expr → Expr → Prop
  | ident {x y : String} : V x y → Renamed F V (.ident x) (.ident y)
  | int (value : Int) : Renamed F V (.int value) (.int value)
  | str (text : String) : Renamed F V (.str text) (.str text)
  | call {f g : String} {args args' : List Expr} :
      F f g → List.Forall₂ (Renamed F V) args args' → Renamed F V (.call f args) (.call g args')
  | assign {x y : String} {value value' : Expr} :
      V x y → Renamed F V value value' → Renamed F V (.assign x value) (.assign y value')
  | chain {operands operands' : List Expr} (operators : List BinaryOp) :
      List.Forall₂ (Renamed F V) operands operands' →
      Renamed F V (.chain operands operators) (.chain operands' operators)

mutual

/-- Statements that differ in their names and in the types of their variables, as long as both types
    have a size or none has. -/
inductive Stmt.Renamed (F V : String → String → Prop) : Stmt → Stmt → Prop
  | declare {ty ty' : Ty} {x y : String} :
      V x y → ty.size?.isSome = ty'.size?.isSome → Stmt.Renamed F V (.declare ty x) (.declare ty' y)
  | expr {e e' : Expr} : e.Renamed F V e' → Stmt.Renamed F V (.expr e) (.expr e')
  | ret {e e' : Expr} : e.Renamed F V e' → Stmt.Renamed F V (.ret e) (.ret e')
  | cond {chain chain' : IfChain} : IfChain.Renamed F V chain chain' → Stmt.Renamed F V (.cond chain) (.cond chain')
  | loop {guard guard' : Expr} {body body' : List Stmt} :
      guard.Renamed F V guard' → List.Forall₂ (Stmt.Renamed F V) body body' →
        Stmt.Renamed F V (.loop guard body) (.loop guard' body')

inductive IfChain.Renamed (F V : String → String → Prop) : IfChain → IfChain → Prop
  | branch {guard guard' : Expr} {body body' : List Stmt} {next next' : IfChain} :
      guard.Renamed F V guard' → List.Forall₂ (Stmt.Renamed F V) body body' → IfChain.Renamed F V next next' →
        IfChain.Renamed F V (.branch guard body next) (.branch guard' body' next')
  | otherwise {body body' : List Stmt} :
      List.Forall₂ (Stmt.Renamed F V) body body' → IfChain.Renamed F V (.otherwise body) (.otherwise body')
  | done : IfChain.Renamed F V .done .done

end

/-- Functions that differ in their names, in those of their variables, and in what the caller sees. -/
structure Function.Renamed (F : String → String → Prop) (f f' : Function) : Prop where
  name : F f.name f'.name
  body : ∃ V, OneToOne V ∧ List.Forall₂ (Stmt.Renamed F V) f.body f'.body

/-- Programs whose functions differ like that, in the same order. -/
def Program.Renamed (F : String → String → Prop) (p p' : Program) : Prop :=
  List.Forall₂ (Function.Renamed F) p.functions p'.functions

/-! ## The same tree -/

variable {F : String → String → Prop}

mutual

theorem Expr.Renamed.refl (hF : ∀ f, F f f) : (e : Expr) → e.Renamed F Eq e
  | .ident _ => .ident rfl
  | .int value => .int value
  | .str text => .str text
  | .call f args => .call (hF f) (Expr.Renamed.reflAll hF args)
  | .assign _ value => .assign rfl (Expr.Renamed.refl hF value)
  | .chain operands operators => .chain operators (Expr.Renamed.reflAll hF operands)

theorem Expr.Renamed.reflAll (hF : ∀ f, F f f) : (es : List Expr) → List.Forall₂ (Expr.Renamed F Eq) es es
  | [] => .nil
  | e :: es => .cons (Expr.Renamed.refl hF e) (Expr.Renamed.reflAll hF es)

end

mutual

theorem Stmt.Renamed.refl (hF : ∀ f, F f f) : (s : Stmt) → s.Renamed F Eq s
  | .declare _ _ => .declare rfl rfl
  | .expr e => .expr (Expr.Renamed.refl hF e)
  | .ret e => .ret (Expr.Renamed.refl hF e)
  | .cond chain => .cond (IfChain.Renamed.refl hF chain)
  | .loop guard body => .loop (Expr.Renamed.refl hF guard) (Stmt.Renamed.reflAll hF body)

theorem IfChain.Renamed.refl (hF : ∀ f, F f f) : (chain : IfChain) → chain.Renamed F Eq chain
  | .branch guard body next =>
    .branch (Expr.Renamed.refl hF guard) (Stmt.Renamed.reflAll hF body) (IfChain.Renamed.refl hF next)
  | .otherwise body => .otherwise (Stmt.Renamed.reflAll hF body)
  | .done => .done

theorem Stmt.Renamed.reflAll (hF : ∀ f, F f f) : (ss : List Stmt) → List.Forall₂ (Stmt.Renamed F Eq) ss ss
  | [] => .nil
  | s :: ss => .cons (Stmt.Renamed.refl hF s) (Stmt.Renamed.reflAll hF ss)

end

theorem Function.Renamed.refl (hF : ∀ f, F f f) (f : Function) : f.Renamed F f :=
  ⟨hF f.name, Eq, .eq, Stmt.Renamed.reflAll hF f.body⟩

end DotCom
