/-
  DotCom.Machine.Operation — what the processor can do, and how it reads that off memory. More
  byte sequences are understood than images contain: any register, and memory operands wherever
  an operand byte stands.
-/

import DotCom.Machine.State
import DotCom.Text.Numeral

namespace DotCom

/-- Why the processor stops without the program having ended. -/
inductive Fault where
  | imageTooLarge
  | opcode (opcode : UInt8) (addr : UInt16)
  | addressing (operand : UInt8)
  | stackGroup (field : UInt8) (addr : UInt16)
  | arithGroup (opcode field : UInt8) (addr : UInt16)
  | divideGroup (field : UInt8) (addr : UInt16)
  | extended (second : UInt8) (addr : UInt16)
  | interrupt (vector : UInt8) (addr : UInt16)
  | dosFunction (number : UInt8)
  | divideByZero (addr : UInt16)
  | divideOverflow (addr : UInt16)
  /-- The quotient does not even fit in the 32 bits of the dividend. -/
  | quotientTooWide
  | stepLimit (limit : Nat)
  deriving DecidableEq, Repr

namespace Fault

def byteText (b : UInt8) : String := Text.hex 2 b.toNat

def addrText (a : UInt16) : String := Text.hex 4 a.toNat

def message : Fault → String
  | imageTooLarge => "image does not fit the segment"
  | opcode op addr => "unsupported opcode " ++ byteText op ++ " at " ++ addrText addr
  | addressing operand => "unsupported addressing mode " ++ byteText operand
  | stackGroup field addr => s!"unsupported ff /{field.toNat} at " ++ addrText addr
  | arithGroup op field addr =>
    "unsupported " ++ byteText op ++ s!" /{field.toNat} at " ++ addrText addr
  | divideGroup field addr => s!"unsupported f7 /{field.toNat} at " ++ addrText addr
  | extended second addr => "unsupported 0f " ++ byteText second ++ " at " ++ addrText addr
  | interrupt vector addr => "unsupported interrupt " ++ byteText vector ++ " at " ++ addrText addr
  | dosFunction number => "unsupported DOS function " ++ byteText number
  | divideByZero addr => "divide error at " ++ addrText addr
  | divideOverflow addr => "divide overflow at " ++ addrText addr
  | quotientTooWide => "attempt to divide with overflow"
  | stepLimit limit => s!"program did not exit within {limit} steps"

end Fault

inductive Place where
  | reg (r : Reg)
  | abs (addr : UInt16)
  /-- A word at `bp` plus a displacement. -/
  | frame (disp : UInt16)
  deriving DecidableEq, Repr

inductive Source where
  | place (p : Place)
  | imm (value : UInt16)
  deriving DecidableEq, Repr

inductive Arith where
  | add | sub | xor
  /-- `sub` and `and` for their flags only. -/
  | cmp | test
  deriving DecidableEq, Repr

inductive Operation where
  | move (dst : Place) (src : Source)
  /-- Sets the high byte of `ax`. -/
  | moveHigh (value : UInt8)
  | push (src : Place)
  | pop (dst : Reg)
  | call (target : Place)
  | jump (target : Place)
  | arith (op : Arith) (dst : Place) (src : Source)
  | multiply (dst : Reg) (src : Place)
  | widen
  | divide (divisor : Place)
  | jumpIf (cond : Cond) (rel : UInt16)
  | jumpBy (rel : UInt16)
  | ret
  | dos
  deriving DecidableEq, Repr

/-- The register with a number, of which the low three bits count. -/
def Reg.ofCode (b : UInt8) : Reg :=
  match (b % 8).toNat with
  | 0 => ax
  | 1 => cx
  | 2 => dx
  | 3 => bx
  | 4 => sp
  | 5 => bp
  | 6 => si
  | _ => di

/-- An operand byte and what belongs to it: its middle field, the place it names, and the
    address behind it. -/
structure Operand where
  field : UInt8
  place : Place
  next : UInt16

namespace Memory

def operand (m : Memory) (addr : UInt16) : Except Fault Operand :=
  let b := m.read addr
  let field := b / 8 % 8
  if b / 64 = 3 then .ok ⟨field, .reg (Reg.ofCode b), addr + 1⟩
  else if b % 8 = 6 then
    if b / 64 = 0 then .ok ⟨field, .abs (m.readWord (addr + 1)), addr + 3⟩
    else if b / 64 = 1 then .ok ⟨field, .frame (Word.signExtend (m.read (addr + 1))), addr + 2⟩
    else .ok ⟨field, .frame (m.readWord (addr + 1)), addr + 3⟩
  else .error (.addressing b)

/-- Arithmetic between an operand and the register that its field names. -/
def regArith (m : Memory) (op : Arith) (addr : UInt16) : Except Fault (Operation × UInt16) := do
  let o ← m.operand addr
  return (.arith op o.place (.place (.reg (Reg.ofCode o.field))), o.next)

/-- Arithmetic between an operand and the immediate behind it; the field tells which. -/
def immArith (m : Memory) (opcode : UInt8) (addr : UInt16) : Except Fault (Operation × UInt16) := do
  let o ← m.operand (addr + 1)
  let (value, next) :=
    if opcode = 0x83 then (Word.signExtend (m.read o.next), o.next + 1)
    else (m.readWord o.next, o.next + 2)
  if o.field = 0 then return (.arith .add o.place (.imm value), next)
  else if o.field = 5 then return (.arith .sub o.place (.imm value), next)
  else throw (.arithGroup opcode o.field addr)

/-- The operation at an address and the address behind it. -/
def decode (m : Memory) (addr : UInt16) : Except Fault (Operation × UInt16) :=
  let opcode := m.read addr
  let next := addr + 1
  let jumpIf (cond : Cond) : Except Fault (Operation × UInt16) :=
    .ok (.jumpIf cond (Word.signExtend (m.read next)), next + 1)
  if opcode / 8 = 0x17 then .ok (.move (.reg (Reg.ofCode opcode)) (.imm (m.readWord next)), next + 2)
  else if opcode / 8 = 0x0a then .ok (.push (.reg (Reg.ofCode opcode)), next)
  else if opcode / 8 = 0x0b then .ok (.pop (Reg.ofCode opcode), next)
  else match opcode with
    | 0xb4 => .ok (.moveHigh (m.read next), next + 1)
    | 0x8b => do
      let o ← m.operand next
      return (.move (.reg (Reg.ofCode o.field)) (.place o.place), o.next)
    | 0x89 => do
      let o ← m.operand next
      return (.move o.place (.place (.reg (Reg.ofCode o.field))), o.next)
    | 0xa1 => .ok (.move (.reg .ax) (.place (.abs (m.readWord next))), next + 2)
    | 0xa3 => .ok (.move (.abs (m.readWord next)) (.place (.reg .ax)), next + 2)
    | 0xff => do
      let o ← m.operand next
      match o.field with
      | 2 => return (.call o.place, o.next)
      | 4 => return (.jump o.place, o.next)
      | 6 => return (.push o.place, o.next)
      | field => throw (.stackGroup field addr)
    | 0x81 => m.immArith 0x81 addr
    | 0x83 => m.immArith 0x83 addr
    | 0x05 => .ok (.arith .add (.reg .ax) (.imm (m.readWord next)), next + 2)
    | 0x2d => .ok (.arith .sub (.reg .ax) (.imm (m.readWord next)), next + 2)
    | 0x01 => m.regArith .add next
    | 0x29 => m.regArith .sub next
    | 0x31 => m.regArith .xor next
    | 0x39 => m.regArith .cmp next
    | 0x85 => m.regArith .test next
    | 0x0f => do
      let second := m.read next
      if second ≠ 0xaf then
        throw (.extended second addr)
      let o ← m.operand (next + 1)
      return (.multiply (Reg.ofCode o.field) o.place, o.next)
    | 0x99 => .ok (.widen, next)
    | 0xf7 => do
      let o ← m.operand next
      if o.field ≠ 7 then
        throw (.divideGroup o.field addr)
      return (.divide o.place, o.next)
    | 0x74 => jumpIf .equal
    | 0x75 => jumpIf .notEqual
    | 0x7c => jumpIf .less
    | 0x7d => jumpIf .greaterOrEqual
    | 0x7e => jumpIf .lessOrEqual
    | 0x7f => jumpIf .greater
    | 0xeb => .ok (.jumpBy (Word.signExtend (m.read next)), next + 1)
    | 0xe9 => .ok (.jumpBy (m.readWord next), next + 2)
    | 0xc3 => .ok (.ret, next)
    | 0xcd =>
      let vector := m.read next
      if vector = 0x21 then .ok (.dos, next + 1) else .error (.interrupt vector addr)
    | opcode => .error (.opcode opcode addr)

end Memory

end DotCom
