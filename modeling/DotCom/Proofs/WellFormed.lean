/-
  DotCom.Proofs.WellFormed — the programs that have an image, said without lowering them: names
  are declared before they are used, operators and types have code, numbers and characters fit
  their cells, and the body of each branch is in reach of a short jump.

  A name is looked up in the frame of its function, which the bodies of branches share, so what
  counts is the order in which the declarations are written.
-/

import DotCom.Proofs.Layout

namespace DotCom

/-- The operators that have code. -/
def BinaryOp.Supported (op : BinaryOp) : Prop := op ∈ [add, sub, mul, div, eq, ne, lt, le, gt, ge]

instance (op : BinaryOp) : Decidable op.Supported := inferInstanceAs (Decidable (_ ∈ _))

/-! ## Declarations -/

mutual

/-- The declarations written in a statement. -/
def Stmt.declared : Stmt → Nat
  | .declare _ _ => 1
  | .cond chain => chain.declared
  | .loop _ body => declaredIn body
  | .expr _ | .ret _ => 0

def IfChain.declared : IfChain → Nat
  | .branch _ body next => declaredIn body + next.declared
  | .otherwise body => declaredIn body
  | .done => 0

def declaredIn : List Stmt → Nat
  | [] => 0
  | s :: ss => s.declared + declaredIn ss

end

/-- The most declarations of a function; each takes a word, and the total is a signed word. -/
def maxDeclared : Nat := 16383

/-! ## Trees -/

/-- A name has a slot, a number is one of 16 bits with or without a sign, characters are bytes. -/
def Leaf.WellFormed (frame : Frame) : Leaf → Prop
  | .var name => frame.contains name
  | .int value => -32768 ≤ value ∧ value ≤ 65535
  | .str text => ∀ c ∈ text.toList, c.toNat ≤ 255

mutual

/-- What lowering asks of an expression in a frame, when the functions in `known` can be called. -/
def Expr.WellFormed (frame : Frame) (known : List String) : Expr → Prop
  | .ident name => (Leaf.var name).WellFormed frame
  | .int value => (Leaf.int value).WellFormed frame
  | .str text => (Leaf.str text).WellFormed frame
  | .call name args =>
    (if name = puts then args.length = 1 else name ∈ known) ∧ allWellFormed frame known args
  | .assign target value => frame.contains target ∧ value.WellFormed frame known
  | .chain operands operators =>
    operands.length = operators.length + 1 ∧ (∀ op ∈ operators, op.Supported) ∧
      allWellFormed frame known operands

def allWellFormed (frame : Frame) (known : List String) : List Expr → Prop
  | [] => True
  | e :: es => e.WellFormed frame known ∧ allWellFormed frame known es

end

mutual

def Stmt.WellFormed (frame : Frame) (known : List String) : Stmt → Prop
  | .declare ty name => (ty.isInteger ∨ ty.isPointer) ∧ ¬ frame.contains name
  | .expr e => e.WellFormed frame known
  | .ret e => e.WellFormed frame known
  | .cond chain => chain.WellFormed frame known
  | .loop _ _ => False

def IfChain.WellFormed (frame : Frame) (known : List String) : IfChain → Prop
  | .branch guard body next =>
    guard.WellFormed frame known ∧ stmtsWellFormed frame known body ∧ bodySize frame body ≤ 127 ∧
      next.WellFormed (frameAfter frame body) known
  | .otherwise body => stmtsWellFormed frame known body
  | .done => True

def stmtsWellFormed (frame : Frame) (known : List String) : List Stmt → Prop
  | [] => True
  | s :: ss => s.WellFormed frame known ∧ stmtsWellFormed (s.frame frame) known ss

end

/-! ## Deciding it -/

instance (frame : Frame) (leaf : Leaf) : Decidable (leaf.WellFormed frame) :=
  match leaf with
  | .var name => inferInstanceAs (Decidable (frame.contains name = true))
  | .int value => inferInstanceAs (Decidable (-32768 ≤ value ∧ value ≤ 65535))
  | .str text => List.decidableBAll (fun c : Char => c.toNat ≤ 255) text.toList

mutual

def Expr.decWellFormed (frame : Frame) (known : List String) : (e : Expr) → Decidable (e.WellFormed frame known)
  | .ident name => inferInstanceAs (Decidable ((Leaf.var name).WellFormed frame))
  | .int value => inferInstanceAs (Decidable ((Leaf.int value).WellFormed frame))
  | .str text => inferInstanceAs (Decidable ((Leaf.str text).WellFormed frame))
  | .call _ args => @instDecidableAnd _ _ inferInstance (decAllWellFormed frame known args)
  | .assign _ value => @instDecidableAnd _ _ inferInstance (value.decWellFormed frame known)
  | .chain operands _ =>
    @instDecidableAnd _ _ inferInstance (@instDecidableAnd _ _ inferInstance (decAllWellFormed frame known operands))

def decAllWellFormed (frame : Frame) (known : List String) : (es : List Expr) → Decidable (allWellFormed frame known es)
  | [] => .isTrue trivial
  | e :: es => @instDecidableAnd _ _ (e.decWellFormed frame known) (decAllWellFormed frame known es)

end

instance (frame : Frame) (known : List String) (e : Expr) : Decidable (e.WellFormed frame known) :=
  e.decWellFormed frame known

mutual

def Stmt.decWellFormed (frame : Frame) (known : List String) : (st : Stmt) → Decidable (st.WellFormed frame known)
  | .declare ty name => inferInstanceAs (Decidable ((ty.isInteger ∨ ty.isPointer) ∧ ¬ frame.contains name))
  | .expr e => inferInstanceAs (Decidable (e.WellFormed frame known))
  | .ret e => inferInstanceAs (Decidable (e.WellFormed frame known))
  | .cond chain => chain.decWellFormed frame known
  | .loop _ _ => .isFalse id

def IfChain.decWellFormed (frame : Frame) (known : List String) :
    (chain : IfChain) → Decidable (chain.WellFormed frame known)
  | .branch _ body next =>
    @instDecidableAnd _ _ inferInstance (@instDecidableAnd _ _ (decStmtsWellFormed frame known body)
      (@instDecidableAnd _ _ inferInstance (next.decWellFormed (frameAfter frame body) known)))
  | .otherwise body => decStmtsWellFormed frame known body
  | .done => .isTrue trivial

def decStmtsWellFormed (frame : Frame) (known : List String) :
    (ss : List Stmt) → Decidable (stmtsWellFormed frame known ss)
  | [] => .isTrue trivial
  | st :: ss => @instDecidableAnd _ _ (st.decWellFormed frame known) (decStmtsWellFormed (st.frame frame) known ss)

end

instance (frame : Frame) (known : List String) (ss : List Stmt) : Decidable (stmtsWellFormed frame known ss) :=
  decStmtsWellFormed frame known ss

/-! ## Functions and programs -/

/-- What lowering asks of a function that can call those in `known`. -/
structure Function.WellFormed (known : List String) (f : Function) : Prop where
  body : stmtsWellFormed f.frame known f.body
  declared : declaredIn f.body ≤ maxDeclared

instance (known : List String) (f : Function) : Decidable (f.WellFormed known) :=
  decidable_of_iff (stmtsWellFormed f.frame known f.body ∧ declaredIn f.body ≤ maxDeclared)
    ⟨fun h => ⟨h.1, h.2⟩, fun h => ⟨h.body, h.declared⟩⟩

/-- What lowering asks of a program. A function can call itself and those before it, which
    `before` lists nearest first. -/
structure Program.WellFormed (p : Program) (entryPoint : String) : Prop where
  distinct : (p.functions.map Function.name).Nodup
  entry : entryPoint ∈ p.functions.map Function.name
  functions : ∀ before f after, p.functions = before.reverse ++ f :: after →
    f.WellFormed ((f :: before).map Function.name)

end DotCom
