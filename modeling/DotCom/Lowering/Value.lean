/-
  DotCom.Lowering.Value — code for expressions. Whatever its shape, the value of an expression
  ends up in `ax`; the right operand of an operator is in `bx`. Arguments are pushed from right
  to left and dropped by the caller. A string lies in the code itself, behind a jump over it.
-/

import DotCom.Lowering.State
import DotCom.Program

namespace DotCom

/-! ## Operators -/

/-- Leaves one or zero in `ax`, as `ax` and `bx` compare. -/
def comparison (cond : Cond) : List Instr :=
  [.cmp .ax .bx, .movImm .ax 1, .jcc cond 2, .xor .ax .ax]

def BinaryOp.code? : BinaryOp → Option (List Instr)
  | add => some [.add .ax .bx]
  | sub => some [.sub .ax .bx]
  | mul => some [.imul .ax .bx]
  | div => some [.cwd, .idiv .bx]
  | eq => some (comparison .equal)
  | ne => some (comparison .notEqual)
  | gt => some (comparison .greater)
  | lt => some (comparison .less)
  | ge => some (comparison .greaterOrEqual)
  | le => some (comparison .lessOrEqual)
  | mod | shl | shr | bitAnd | bitXor | bitOr | logicAnd | logicOr | subscript => none

/-! ## Leaves -/

/-- An operand that goes straight into a register. -/
inductive Leaf where
  | var (name : String)
  | int (value : Int)
  | str (text : String)
  deriving DecidableEq, Repr

def Expr.leaf? : Expr → Option Leaf
  | .ident name => some (.var name)
  | .int value => some (.int value)
  | .str text => some (.str text)
  | _ => none

/-- The word of an integer, if it is one as a signed or as an unsigned number. -/
def immediate? (value : Int) : Option UInt16 :=
  if -32768 ≤ value ∧ value ≤ 65535 then some (UInt16.ofInt value) else none

/-- The bytes of a text, one for each character; else the first character that is not a byte. -/
def latin1 (text : List Char) : Except Char (List UInt8) :=
  match text.find? (255 < ·.toNat) with
  | some c => .error c
  | none => .ok (text.map fun c => UInt8.ofNat c.toNat)

def jumpOver? (n : Nat) : Option Instr :=
  if n ≤ 127 then some (.jmpShort (Int8.ofNat n))
  else if n ≤ 65535 then some (.jmpNear (UInt16.ofNat n))
  else none

namespace Gen

/-- Lays a string and its sentinel down behind a jump, and loads its address. -/
def loadString (dst : Reg) (text : String) : Gen Unit := do
  match latin1 text.toList with
  | .error c => reject (.unencodableCharacter c)
  | .ok chars =>
    let bytes := chars ++ [DosFunction.sentinel]
    match jumpOver? bytes.length with
    | none => reject (.bufferOverflow ((← position) + bytes.length) (← get).image.capacity)
    | some jump =>
      emit jump
      let start ← address
      report (.literal bytes.length start)
      onImage (Image.emit bytes)
      emit (.movImm dst start)

def load (dst : Reg) : Leaf → Gen Unit
  | .var name => do
    let disp ← attempt ((← frame).displacement name)
    emit (.loadFrame dst disp)
  | .int value =>
    match immediate? value with
    | some word => emit (.movImm dst word)
    | none => reject (.integerOutOfRange value)
  | .str text => loadString dst text

def apply (op : BinaryOp) : Gen Unit := do
  match op.code? with
  | some code => emitAll code
  | none => reject (.unsupportedOperator op.symbol (← frame).function)

def callee (name : String) : Gen UInt16 := do
  let caller ← frame
  match (← get).functions.address? name with
  | some address => return address
  | none => reject (.unresolvedCallee name caller.function)

def dropArgs (count : Nat) : Gen Unit :=
  emit (.addImm .sp (if 2 * count ≤ 32767 then Int16.ofNat (2 * count) else Int16.maxValue))

end Gen

/-- The name of the one function that every program has: it prints a string. -/
def puts : String := "puts"

open Gen

mutual

/-- Code that leaves the value of an expression in `ax`. -/
def Expr.lower : Expr → Gen Unit
  | .ident name => load .ax (.var name)
  | .int value => load .ax (.int value)
  | .str text => load .ax (.str text)
  | .call name args =>
    if name = puts then
      match args with
      | [message] => do
        message.lower
        emit (.movReg .dx .ax)
        emit (.dosCall .printString)
      | args => reject (.builtinArity puts 1 args.length)
    else do
      let address ← callee name
      lowerArgs args
      emit (.movImm .ax address)
      emit (.callReg .ax)
      dropArgs args.length
  | .assign target value => do
    let disp ← attempt ((← frame).displacement target)
    value.lower
    emit (.storeFrame .ax disp)
  | .chain operands operators => do
    let function := (← frame).function
    if operands.length ≠ operators.length + 1 then
      reject (.malformedChain operands.length operators.length function)
    match operands with
    | [] => reject (.malformedChain 0 operators.length function)
    | first :: rest =>
      first.lower
      lowerTail operators rest

/-- Code that pushes the values of arguments, the last one first. -/
def lowerArgs : List Expr → Gen Unit
  | [] => pure ()
  | arg :: args => do
    lowerArgs args
    arg.lower
    emit (.push .ax)

/-- Code that applies operators to `ax`, each with its right operand. -/
def lowerTail : List BinaryOp → List Expr → Gen Unit
  | op :: ops, operand :: operands => do
    match operand.leaf? with
    | some leaf => load .bx leaf
    | none =>
      emit (.push .ax)
      operand.lower
      emit (.movReg .bx .ax)
      emit (.pop .ax)
    apply op
    lowerTail ops operands
  | _, _ => pure ()

end

end DotCom
