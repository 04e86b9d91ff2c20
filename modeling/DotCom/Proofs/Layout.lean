/-
  DotCom.Proofs.Layout — the code of a program, said in one piece. Lowering appends chunks and
  comes back to fill in what it did not know; here every address is known from the start, since
  the size of a piece of code does not depend on where it stands.

  - `length_code` (for expressions, statements, functions): the code of a tree has the size that
    `size` tells, wherever it stands and whatever it is linked to.
-/

import DotCom.Compile

namespace DotCom

/-- What code refers to: the address of the first byte of its image, and the functions. -/
structure Link where
  base : UInt16
  functions : FunctionTable

namespace Link

/-- The loaded address of an offset. -/
def addr (link : Link) (pos : Nat) : UInt16 := link.base + UInt16.ofNat pos

/-- The address of a function. -/
def entry (link : Link) (name : String) : UInt16 := (link.functions.address? name).getD 0

end Link

/-- The bytes that an instruction takes. -/
def Instr.size (i : Instr) : Nat := i.encode.length

namespace Instr

theorem length_encode (i : Instr) : i.encode.length = i.size := rfl

@[simp] theorem size_movImm (r : Reg) (v : UInt16) : (movImm r v).size = 3 := rfl
@[simp] theorem size_push (r : Reg) : (push r).size = 1 := rfl
@[simp] theorem size_pop (r : Reg) : (pop r).size = 1 := rfl
@[simp] theorem size_movReg (r r' : Reg) : (movReg r r').size = 2 := rfl
@[simp] theorem size_test (r r' : Reg) : (test r r').size = 2 := rfl
@[simp] theorem size_jcc (c : Cond) (rel : Int8) : (jcc c rel).size = 2 := rfl
@[simp] theorem size_callReg (r : Reg) : (callReg r).size = 2 := rfl
@[simp] theorem size_jmpReg (r : Reg) : (jmpReg r).size = 2 := rfl
@[simp] theorem size_ret : ret.size = 1 := rfl
@[simp] theorem size_dosCall (f : DosFunction) : (dosCall f).size = 4 := rfl

end Instr

def encodeAll (is : List Instr) : List UInt8 := is.flatMap Instr.encode

@[simp] theorem encodeAll_nil : encodeAll [] = [] := rfl
@[simp] theorem encodeAll_cons (i : Instr) (is : List Instr) : encodeAll (i :: is) = i.encode ++ encodeAll is := rfl

/-! ## Frames -/

namespace Frame

/-- The displacement of a variable, zero for a name without a slot. -/
def disp (frame : Frame) (name : String) : Int16 := -((frame.offset? name).getD 0).toInt16

/-- The frame with one more word, for a name. -/
def bind (frame : Frame) (name : String) : Frame :=
  { frame with allocated := frame.allocated + 2, slots := (name, frame.allocated + 2) :: frame.slots }

end Frame

mutual

/-- The frame behind a statement. The bodies of an `if` share the frame of the function. -/
def Stmt.frame (frame : Frame) : Stmt → Frame
  | .declare _ name => frame.bind name
  | .cond chain => chain.frame frame
  | .loop _ body => frameAfter frame body
  | .expr _ | .ret _ => frame

def IfChain.frame (frame : Frame) : IfChain → Frame
  | .branch _ body next => next.frame (frameAfter frame body)
  | .otherwise body => frameAfter frame body
  | .done => frame

def frameAfter (frame : Frame) : List Stmt → Frame
  | [] => frame
  | s :: ss => frameAfter (s.frame frame) ss

end

/-! ## Leaves and operators -/

/-- One byte for each character of a text. -/
def charBytes (text : String) : List UInt8 := text.toList.map fun c => UInt8.ofNat c.toNat

/-- The jump over `n` bytes. -/
def jumpOver (n : Nat) : Instr := if n ≤ 127 then .jmpShort (Int8.ofNat n) else .jmpNear (UInt16.ofNat n)

namespace Leaf

def size (frame : Frame) (dst : Reg) : Leaf → Nat
  | .var name => (Instr.loadFrame dst (frame.disp name)).size
  | .int value => (Instr.movImm dst (UInt16.ofInt value)).size
  | .str text => (jumpOver (text.length + 1)).size + (text.length + 1) + (Instr.movImm dst 0).size

/-- The code that loads a leaf. A string stands behind a jump over it and its sentinel. -/
def code (link : Link) (frame : Frame) (dst : Reg) (pos : Nat) : Leaf → List UInt8
  | .var name => (Instr.loadFrame dst (frame.disp name)).encode
  | .int value => (Instr.movImm dst (UInt16.ofInt value)).encode
  | .str text =>
    let jump := jumpOver (text.length + 1)
    jump.encode ++ (charBytes text ++ [DosFunction.sentinel]) ++
      (Instr.movImm dst (link.addr (pos + jump.size))).encode

end Leaf

/-- The instructions of an operator, none if it has no code. -/
def BinaryOp.instrs (op : BinaryOp) : List Instr := op.code?.getD []

/-- What a call takes off the stack for its arguments. -/
def argBytes (count : Nat) : Int16 := if 2 * count ≤ 32767 then Int16.ofNat (2 * count) else Int16.maxValue

/-! ## Expressions -/

mutual

/-- The bytes of the code of an expression. -/
def Expr.size (frame : Frame) : Expr → Nat
  | .ident name => (Leaf.var name).size frame .ax
  | .int value => (Leaf.int value).size frame .ax
  | .str text => (Leaf.str text).size frame .ax
  | .call name args =>
    if name = puts then
      match args with
      | [message] =>
        message.size frame + (Instr.movReg .dx .ax).size + (Instr.dosCall .printString).size
      | _ => 0
    else
      argsSize frame args + (Instr.movImm .ax 0).size + (Instr.callReg .ax).size +
        (Instr.addImm .sp (argBytes args.length)).size
  | .assign target value => value.size frame + (Instr.storeFrame .ax (frame.disp target)).size
  | .chain operands operators =>
    match operands with
    | [] => 0
    | first :: rest => first.size frame + tailSize frame operators rest

def argsSize (frame : Frame) : List Expr → Nat
  | [] => 0
  | arg :: args => argsSize frame args + arg.size frame + (Instr.push .ax).size

def tailSize (frame : Frame) : List BinaryOp → List Expr → Nat
  | op :: ops, operand :: operands =>
    (match operand.leaf? with
      | some leaf => leaf.size frame .bx
      | none =>
        (Instr.push .ax).size + operand.size frame + (Instr.movReg .bx .ax).size + (Instr.pop .ax).size) +
      (encodeAll op.instrs).length + tailSize frame ops operands
  | _, _ => 0

end

/-- The bytes that bring the right operand of an operator into `bx`. -/
def Expr.rightSize (frame : Frame) (e : Expr) : Nat :=
  match e.leaf? with
  | some leaf => leaf.size frame .bx
  | none => (Instr.push .ax).size + e.size frame + (Instr.movReg .bx .ax).size + (Instr.pop .ax).size

mutual

/-- The code of an expression that starts at `pos`. -/
def Expr.code (link : Link) (frame : Frame) (pos : Nat) : Expr → List UInt8
  | .ident name => (Leaf.var name).code link frame .ax pos
  | .int value => (Leaf.int value).code link frame .ax pos
  | .str text => (Leaf.str text).code link frame .ax pos
  | .call name args =>
    if name = puts then
      match args with
      | [message] =>
        message.code link frame pos ++ (Instr.movReg .dx .ax).encode ++ (Instr.dosCall .printString).encode
      | _ => []
    else
      argsCode link frame pos args ++ (Instr.movImm .ax (link.entry name)).encode ++
        (Instr.callReg .ax).encode ++ (Instr.addImm .sp (argBytes args.length)).encode
  | .assign target value =>
    value.code link frame pos ++ (Instr.storeFrame .ax (frame.disp target)).encode
  | .chain operands operators =>
    match operands with
    | [] => []
    | first :: rest =>
      first.code link frame pos ++ tailCode link frame (pos + first.size frame) operators rest

/-- The code of arguments, the last one first. -/
def argsCode (link : Link) (frame : Frame) (pos : Nat) : List Expr → List UInt8
  | [] => []
  | arg :: args =>
    argsCode link frame pos args ++ arg.code link frame (pos + argsSize frame args) ++
      (Instr.push .ax).encode

/-- The code that applies operators to `ax`, each with its right operand. -/
def tailCode (link : Link) (frame : Frame) (pos : Nat) : List BinaryOp → List Expr → List UInt8
  | op :: ops, operand :: operands =>
    (match operand.leaf? with
      | some leaf => leaf.code link frame .bx pos
      | none =>
        (Instr.push .ax).encode ++ operand.code link frame (pos + 1) ++ (Instr.movReg .bx .ax).encode ++
          (Instr.pop .ax).encode) ++
      encodeAll op.instrs ++ tailCode link frame
        (pos + operand.rightSize frame + (encodeAll op.instrs).length) ops operands
  | _, _ => []

end

/-- The code that brings the right operand of an operator into `bx`. -/
def Expr.rightCode (link : Link) (frame : Frame) (pos : Nat) (e : Expr) : List UInt8 :=
  match e.leaf? with
  | some leaf => leaf.code link frame .bx pos
  | none =>
    (Instr.push .ax).encode ++ e.code link frame (pos + 1) ++ (Instr.movReg .bx .ax).encode ++
      (Instr.pop .ax).encode

theorem tailSize_cons (frame : Frame) (op : BinaryOp) (ops : List BinaryOp) (e : Expr) (es : List Expr) :
    tailSize frame (op :: ops) (e :: es) =
      e.rightSize frame + (encodeAll op.instrs).length + tailSize frame ops es := by
  rw [tailSize, Expr.rightSize]

theorem tailCode_cons (link : Link) (frame : Frame) (pos : Nat) (op : BinaryOp) (ops : List BinaryOp) (e : Expr)
    (es : List Expr) :
    tailCode link frame pos (op :: ops) (e :: es) = e.rightCode link frame pos ++ encodeAll op.instrs ++
      tailCode link frame (pos + e.rightSize frame + (encodeAll op.instrs).length) ops es := by
  rw [tailCode, Expr.rightCode]

/-! ## Statements -/

/-- What gives the frame back and returns. -/
def epilogueInstrs (frame : Frame) : List Instr := [.addImm .sp frame.frameSize, .pop .bp, .ret]

mutual

/-- The bytes of the code of a statement. -/
def Stmt.size (frame : Frame) : Stmt → Nat
  | .declare _ _ => (Instr.subImm .sp 2).size
  | .expr e => e.size frame
  | .ret e => e.size frame + (encodeAll (epilogueInstrs frame)).length
  | .cond chain => chain.size frame
  | .loop _ _ => 0

def IfChain.size (frame : Frame) : IfChain → Nat
  | .branch guard body next =>
    guard.size frame + (Instr.test .ax .ax).size + (Instr.jcc .equal 0).size + stmtsSize frame body +
      (Instr.movImm .ax 0).size + (Instr.jmpReg .ax).size + next.size (frameAfter frame body)
  | .otherwise body => stmtsSize frame body
  | .done => 0

def stmtsSize (frame : Frame) : List Stmt → Nat
  | [] => 0
  | s :: ss => s.size frame + stmtsSize (s.frame frame) ss

end

/-- The bytes that a short jump skips: a body and the jump behind it. -/
def bodySize (frame : Frame) (body : List Stmt) : Nat :=
  stmtsSize frame body + (Instr.movImm .ax 0).size + (Instr.jmpReg .ax).size

mutual

/-- The code of a statement that starts at `pos`. -/
def Stmt.code (link : Link) (frame : Frame) (pos : Nat) : Stmt → List UInt8
  | .declare _ _ => (Instr.subImm .sp 2).encode
  | .expr e => e.code link frame pos
  | .ret e => e.code link frame pos ++ encodeAll (epilogueInstrs frame)
  | .cond chain => chain.code link frame pos (link.addr (pos + chain.size frame))
  | .loop _ _ => []

/-- The code of branches that are left for the address `exit`. -/
def IfChain.code (link : Link) (frame : Frame) (pos : Nat) (exit : UInt16) : IfChain → List UInt8
  | .branch guard body next =>
    guard.code link frame pos ++ (Instr.test .ax .ax).encode ++
      (Instr.jcc .equal (Int8.ofNat (bodySize frame body))).encode ++
      stmtsCode link frame (pos + guard.size frame + 4) body ++
      (Instr.movImm .ax exit).encode ++ (Instr.jmpReg .ax).encode ++
      next.code link (frameAfter frame body) (pos + guard.size frame + 4 + bodySize frame body) exit
  | .otherwise body => stmtsCode link frame pos body
  | .done => []

def stmtsCode (link : Link) (frame : Frame) (pos : Nat) : List Stmt → List UInt8
  | [] => []
  | s :: ss => s.code link frame pos ++ stmtsCode link (s.frame frame) (pos + s.size frame) ss

end

/-! ## Functions and programs -/

namespace Function

/-- The frame that a function starts with. -/
def frame (f : Function) : Frame := { function := f.name }

def size (f : Function) : Nat :=
  (Instr.push .bp).size + (Instr.movReg .bp .sp).size + stmtsSize f.frame f.body +
    (encodeAll (epilogueInstrs (frameAfter f.frame f.body))).length

def code (link : Link) (pos : Nat) (f : Function) : List UInt8 :=
  (Instr.push .bp).encode ++ (Instr.movReg .bp .sp).encode ++ stmtsCode link f.frame (pos + 3) f.body ++
    encodeAll (epilogueInstrs (frameAfter f.frame f.body))

end Function

def functionsSize : List Function → Nat
  | [] => 0
  | f :: fs => f.size + functionsSize fs

def functionsCode (link : Link) (pos : Nat) : List Function → List UInt8
  | [] => []
  | f :: fs => f.code link pos ++ functionsCode link (pos + f.size) fs

/-- The functions of `table`, then those that stand from `pos` on, newest first. -/
def tableAfter (base : UInt16) (table : FunctionTable) (pos : Nat) : List Function → FunctionTable
  | [] => table
  | f :: fs => tableAfter base ⟨(f.name, base + UInt16.ofNat pos) :: table.entries⟩ (pos + f.size) fs

/-- What starts a program: a call of its entry point, and its exit. -/
def stub (entry : UInt16) : List Instr := [.movImm .ax entry, .callReg .ax, .dosCall .exit]

/-- The bytes of the stub. -/
def stubSize : Nat := 9

namespace Program

def size (p : Program) : Nat := stubSize + functionsSize p.functions

/-- The link of a whole program: its functions stand one behind the other, the first behind
    the stub. -/
def link (p : Program) (base : UInt16) : Link := ⟨base, tableAfter base {} stubSize p.functions⟩

/-- The image of a program that is loaded at `base` and starts with `entryPoint`. -/
def code (p : Program) (base : UInt16) (entryPoint : String) : List UInt8 :=
  encodeAll (stub ((p.link base).entry entryPoint)) ++ functionsCode (p.link base) stubSize p.functions

end Program

/-! ## Sizes -/

@[simp] theorem length_encodeAll_stub (entry : UInt16) : (encodeAll (stub entry)).length = stubSize := rfl

@[simp] theorem length_charBytes (text : String) : (charBytes text).length = text.length := by
  simp [charBytes, String.length]

namespace Leaf

theorem length_code (link : Link) (frame : Frame) (dst : Reg) (pos : Nat) (leaf : Leaf) :
    (leaf.code link frame dst pos).length = leaf.size frame dst := by
  cases leaf with
  | var name => rfl
  | int value => rfl
  | str text =>
    simp only [code, size, List.length_append, length_charBytes, List.length_singleton]
    rfl

end Leaf

theorem Expr.length_rightCode_of {link : Link} {frame : Frame} {pos : Nat} (e : Expr)
    (h : (e.code link frame (pos + 1)).length = e.size frame) :
    (e.rightCode link frame pos).length = e.rightSize frame := by
  unfold Expr.rightCode Expr.rightSize
  split
  · exact Leaf.length_code ..
  · simp only [List.length_append, h, Instr.size]

mutual

theorem Expr.length_code (link : Link) (frame : Frame) (pos : Nat) (e : Expr) :
    (e.code link frame pos).length = e.size frame := by
  match e with
  | .ident _ | .int _ | .str _ => exact Leaf.length_code ..
  | .call name args =>
    rw [Expr.code.eq_def, Expr.size.eq_def]
    dsimp only
    split
    · match args with
      | [message] =>
        simp only [List.length_append, Expr.length_code link frame pos message, Instr.size]
      | [] | _ :: _ :: _ => rfl
    · simp only [List.length_append, length_argsCode link frame pos args, Instr.size]
      rfl
  | .assign target value =>
    simp only [Expr.code, Expr.size, List.length_append, Expr.length_code link frame pos value, Instr.size]
  | .chain operands operators =>
    match operands with
    | [] => rfl
    | first :: rest =>
      simp only [Expr.code, Expr.size, List.length_append, Expr.length_code link frame pos first,
        length_tailCode link frame (pos + first.size frame) operators rest]

theorem length_argsCode (link : Link) (frame : Frame) (pos : Nat) (args : List Expr) :
    (argsCode link frame pos args).length = argsSize frame args := by
  match args with
  | [] => rfl
  | arg :: args =>
    simp only [argsCode, argsSize, List.length_append, length_argsCode link frame pos args,
      Expr.length_code link frame (pos + argsSize frame args) arg, Instr.size]

theorem length_tailCode (link : Link) (frame : Frame) (pos : Nat) (ops : List BinaryOp) (operands : List Expr) :
    (tailCode link frame pos ops operands).length = tailSize frame ops operands := by
  match ops, operands with
  | op :: ops, operand :: operands =>
    have right := operand.length_rightCode_of (operand.length_code link frame (pos + 1))
    simp only [tailCode_cons, tailSize_cons, List.length_append, right, length_tailCode link frame _ ops operands]
  | [], [] | [], _ :: _ | _ :: _, [] => rfl

end

theorem Expr.length_rightCode (link : Link) (frame : Frame) (pos : Nat) (e : Expr) :
    (e.rightCode link frame pos).length = e.rightSize frame :=
  e.length_rightCode_of (e.length_code link frame (pos + 1))

mutual

theorem Stmt.length_code (link : Link) (frame : Frame) (pos : Nat) (s : Stmt) :
    (s.code link frame pos).length = s.size frame := by
  match s with
  | .declare _ _ | .loop _ _ => rfl
  | .expr e => exact e.length_code link frame pos
  | .ret e => simp only [Stmt.code, Stmt.size, List.length_append, Expr.length_code]
  | .cond chain => exact chain.length_code link frame pos _

theorem IfChain.length_code (link : Link) (frame : Frame) (pos : Nat) (exit : UInt16) (chain : IfChain) :
    (chain.code link frame pos exit).length = chain.size frame := by
  match chain with
  | .branch guard body next =>
    simp only [IfChain.code, IfChain.size, List.length_append, Expr.length_code,
      length_stmtsCode link frame _ body, next.length_code link (frameAfter frame body)]
    rfl
  | .otherwise body => exact length_stmtsCode link frame pos body
  | .done => rfl

theorem length_stmtsCode (link : Link) (frame : Frame) (pos : Nat) (ss : List Stmt) :
    (stmtsCode link frame pos ss).length = stmtsSize frame ss := by
  match ss with
  | [] => rfl
  | s :: ss =>
    simp only [stmtsCode, stmtsSize, List.length_append, s.length_code link frame pos,
      length_stmtsCode link (s.frame frame) _ ss]

end

theorem Function.length_code (link : Link) (pos : Nat) (f : Function) : (f.code link pos).length = f.size := by
  simp only [Function.code, Function.size, List.length_append, length_stmtsCode, Instr.size]

theorem length_functionsCode (link : Link) (pos : Nat) (fs : List Function) :
    (functionsCode link pos fs).length = functionsSize fs := by
  induction fs generalizing pos with
  | nil => rfl
  | cons f fs ih => simp only [functionsCode, functionsSize, List.length_append, Function.length_code, ih]

theorem Program.length_code (p : Program) (base : UInt16) (entryPoint : String) :
    (p.code base entryPoint).length = p.size := by
  simp only [Program.code, Program.size, List.length_append, length_encodeAll_stub, length_functionsCode]

end DotCom
