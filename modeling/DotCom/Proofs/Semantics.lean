/-
  DotCom.Proofs.Semantics — what programs mean, said over their trees alone. Every activation has
  variables of its own. A value is a word, a pointer to a string literal, or unknown: what a call
  of `puts` leaves, or a function that ends without a return. Operators and conditions take words
  only, and `puts` takes pointers only; an evaluation that would need more has no result. Nor has
  one that reads a variable before it is assigned, divides by zero, or divides -32768 by -1.

  Arguments are evaluated from right to left for what they do; no parameter gets their values.
-/

import DotCom.Lowering.Value

namespace DotCom

inductive Value where
  | word (w : UInt16)
  /-- A pointer to a string literal. -/
  | text (s : String)
  | unknown
  deriving DecidableEq, Repr

/-- What a program has written, and what its activations have returned, in order. -/
structure Trace where
  output : List UInt8 := []
  returns : List Value := []
  deriving DecidableEq, Repr

/-- The trace once an activation has returned. -/
def Trace.return (trace : Trace) (v : Value) : Trace := { trace with returns := trace.returns ++ [v] }

/-- The variables of one activation that have been assigned, and the trace so far. -/
structure Activation where
  locals : String → Option Value := fun _ => none
  trace : Trace

namespace Activation

def assign (s : Activation) (name : String) (v : Value) : Activation :=
  { s with locals := fun other => if other = name then some v else s.locals other }

/-- A variable that has just been declared has no value. -/
def declare (s : Activation) (name : String) : Activation :=
  { s with locals := fun other => if other = name then none else s.locals other }

/-- Writes a string up to its first dollar sign. -/
def print (s : Activation) (text : String) : Activation :=
  let bytes := (text.toList.takeWhile (· ≠ '$')).map fun c => UInt8.ofNat c.toNat
  { s with trace := { s.trace with output := s.trace.output ++ bytes } }

theorem locals_assign (s : Activation) (name other : String) (v : Value) :
    (s.assign name v).locals other = if other = name then some v else s.locals other := rfl

theorem locals_declare (s : Activation) (name other : String) :
    (s.declare name).locals other = if other = name then none else s.locals other := rfl

end Activation

/-! ## Operators -/

/-- The word of a truth value. -/
def truth (p : Prop) [Decidable p] : UInt16 := if p then 1 else 0

/-- An operator on words. Sums, differences and products wrap round; quotients and orders are those
    of signed numbers, quotients toward zero. -/
def BinaryOp.onWords (a b : UInt16) : BinaryOp → Option UInt16
  | add => some (a + b)
  | sub => some (a - b)
  | mul => some (a * b)
  | div =>
    let n := a.toInt16.toInt
    let d := b.toInt16.toInt
    if d = 0 ∨ (n = -32768 ∧ d = -1) then none else some (UInt16.ofInt (n.tdiv d))
  | eq => some (truth (a = b))
  | ne => some (truth (a ≠ b))
  | lt => some (truth (a.toInt16.toInt < b.toInt16.toInt))
  | le => some (truth (a.toInt16.toInt ≤ b.toInt16.toInt))
  | gt => some (truth (b.toInt16.toInt < a.toInt16.toInt))
  | ge => some (truth (b.toInt16.toInt ≤ a.toInt16.toInt))
  | mod | shl | shr | bitAnd | bitXor | bitOr | logicAnd | logicOr | subscript => none

def BinaryOp.onValues (op : BinaryOp) : Value → Value → Option Value
  | .word a, .word b => (op.onWords a b).map .word
  | _, _ => none

/-! ## Expressions -/

/-- What a call of a function does, from the trace before it. -/
abbrev CallMeaning := String → Trace → Option (Value × Trace)

mutual

def Expr.eval (call : CallMeaning) : Expr → Activation → Option (Value × Activation)
  | .ident name, s => (s.locals name).map fun v => (v, s)
  | .int value, s => some (.word (UInt16.ofInt value), s)
  | .str text, s => some (.text text, s)
  | .call name args, s =>
    if name = puts then
      match args with
      | [message] =>
        match message.eval call s with
        | some (.text text, s) => some (.unknown, s.print text)
        | _ => none
      | _ => none
    else
      match evalArgs call args s with
      | some s => (call name s.trace).map fun (v, trace) => (v, { s with trace })
      | none => none
  | .assign target value, s => (value.eval call s).map fun (v, s) => (v, s.assign target v)
  | .chain operands operators, s =>
    match operands with
    | [] => none
    | first :: rest =>
      match first.eval call s with
      | some (v, s) => evalTail call v operators rest s
      | none => none

/-- Arguments, the last one first. -/
def evalArgs (call : CallMeaning) : List Expr → Activation → Option Activation
  | [], s => some s
  | arg :: args, s =>
    match evalArgs call args s with
    | some s => (arg.eval call s).map Prod.snd
    | none => none

/-- The operators of a chain in turn, the value so far on the left of each. -/
def evalTail (call : CallMeaning) (v : Value) : List BinaryOp → List Expr → Activation → Option (Value × Activation)
  | op :: ops, operand :: operands, s =>
    match operand.eval call s with
    | some (w, s) =>
      match op.onValues v w with
      | some v => evalTail call v ops operands s
      | none => none
    | none => none
  | [], [], s => some (v, s)
  | _, _, _ => none

end

/-! ## Statements -/

/-- How control leaves a statement. -/
inductive Flow where
  | next
  | returned (v : Value)
  deriving DecidableEq, Repr

mutual

def Stmt.eval (call : CallMeaning) : Stmt → Activation → Option (Flow × Activation)
  | .declare _ name, s => some (.next, s.declare name)
  | .expr e, s => (e.eval call s).map fun (_, s) => (.next, s)
  | .ret e, s => (e.eval call s).map fun (v, s) => (.returned v, s)
  | .cond chain, s => chain.eval call s
  | .loop _ _, _ => none

/-- The first branch whose guard is not zero, else the last body. -/
def IfChain.eval (call : CallMeaning) : IfChain → Activation → Option (Flow × Activation)
  | .branch guard body next, s =>
    match guard.eval call s with
    | some (.word w, s) => if w = 0 then next.eval call s else evalStmts call body s
    | _ => none
  | .otherwise body, s => evalStmts call body s
  | .done, s => some (.next, s)

def evalStmts (call : CallMeaning) : List Stmt → Activation → Option (Flow × Activation)
  | [], s => some (.next, s)
  | st :: ss, s =>
    match st.eval call s with
    | some (.next, s) => evalStmts call ss s
    | result => result

end

/-! ## Programs -/

/-- What a function is worth to its caller. -/
def Flow.value : Flow → Value
  | next => .unknown
  | returned v => v

/-- A call of a function, with calls nested at most `depth` deep. -/
def Program.call (p : Program) : Nat → CallMeaning
  | 0, _, _ => none
  | depth + 1, name, trace =>
    match p.functions.find? (·.name = name) with
    | some f =>
      (evalStmts (p.call depth) f.body { trace }).map fun (flow, s) => (flow.value, s.trace.return flow.value)
    | none => none

end DotCom
