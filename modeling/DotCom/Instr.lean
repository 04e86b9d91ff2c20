/-
  DotCom.Instr — the instructions that images are made of, and their bytes. An instruction has
  the same bytes wherever it stands; the width of a displacement or of an immediate follows
  from its value.
-/

import DotCom.Word

namespace DotCom

/-- The word registers, in the order of their numbers. -/
inductive Reg where
  | ax | cx | dx | bx | sp | bp | si | di
  deriving DecidableEq, Repr

namespace Reg

def code : Reg → UInt8
  | ax => 0
  | cx => 1
  | dx => 2
  | bx => 3
  | sp => 4
  | bp => 5
  | si => 6
  | di => 7

end Reg

/-- What a conditional jump asks of the last comparison; the orders are signed. -/
inductive Cond where
  | equal | notEqual | less | greaterOrEqual | lessOrEqual | greater
  deriving DecidableEq, Repr

namespace Cond

def opcode : Cond → UInt8
  | equal => 0x74
  | notEqual => 0x75
  | less => 0x7c
  | greaterOrEqual => 0x7d
  | lessOrEqual => 0x7e
  | greater => 0x7f

end Cond

/-- The services of the operating system that images call. -/
inductive DosFunction where
  /-- Writes the bytes from the address in `dx` up to the sentinel. -/
  | printString
  /-- Ends the program with the exit code in `al`. -/
  | exit
  deriving DecidableEq, Repr

namespace DosFunction

/-- The number that `ah` holds at the call. -/
def number : DosFunction → UInt8
  | printString => 0x09
  | exit => 0x4c

/-- The byte that ends a printed string, a dollar sign. -/
def sentinel : UInt8 := 0x24

end DosFunction

inductive Instr where
  | movImm (dst : Reg) (value : UInt16)
  | loadAbs (dst : Reg) (addr : UInt16)
  | storeAbs (src : Reg) (addr : UInt16)
  /-- Loads the word at `bp` plus a displacement. -/
  | loadFrame (dst : Reg) (disp : Int16)
  | storeFrame (src : Reg) (disp : Int16)
  | pushFrame (disp : Int16)
  | push (src : Reg)
  | pop (dst : Reg)
  | addImm (dst : Reg) (value : Int16)
  | subImm (dst : Reg) (value : Int16)
  | movReg (dst src : Reg)
  | add (dst src : Reg)
  | sub (dst src : Reg)
  | imul (dst src : Reg)
  /-- Widens `ax` with its sign into `dx` and `ax`. -/
  | cwd
  /-- Divides `dx` and `ax`, signed; the quotient goes to `ax`, the remainder to `dx`. -/
  | idiv (divisor : Reg)
  | cmp (lhs rhs : Reg)
  | xor (dst src : Reg)
  | test (lhs rhs : Reg)
  | jcc (cond : Cond) (rel : Int8)
  | jmpShort (rel : Int8)
  | jmpNear (rel : UInt16)
  | callReg (target : Reg)
  | jmpReg (target : Reg)
  | ret
  | dosCall (function : DosFunction)
  deriving DecidableEq, Repr

namespace Instr

def isNarrow (v : Int16) : Bool := -128 ≤ v && v ≤ 127

def regOperand (field : UInt8) (rm : Reg) : UInt8 := 0xc0 + field * 8 + rm.code

def absOperand (field : UInt8) : UInt8 := 0x06 + field * 8

def frameOperand (field : UInt8) (disp : Int16) : List UInt8 :=
  if isNarrow disp then [0x46 + field * 8, Word.low disp.toUInt16]
  else (0x86 + field * 8) :: Word.bytes disp.toUInt16

/-- Arithmetic with an immediate; `ax` has a shorter form for the wide ones. -/
def immArith (field axOpcode : UInt8) (dst : Reg) (value : Int16) : List UInt8 :=
  if isNarrow value then [0x83, regOperand field dst, Word.low value.toUInt16]
  else if dst = .ax then axOpcode :: Word.bytes value.toUInt16
  else 0x81 :: regOperand field dst :: Word.bytes value.toUInt16

def encode : Instr → List UInt8
  | movImm dst value => (0xb8 + dst.code) :: Word.bytes value
  | loadAbs dst addr =>
    if dst = .ax then 0xa1 :: Word.bytes addr else 0x8b :: absOperand dst.code :: Word.bytes addr
  | storeAbs src addr =>
    if src = .ax then 0xa3 :: Word.bytes addr else 0x89 :: absOperand src.code :: Word.bytes addr
  | loadFrame dst disp => 0x8b :: frameOperand dst.code disp
  | storeFrame src disp => 0x89 :: frameOperand src.code disp
  | pushFrame disp => 0xff :: frameOperand 6 disp
  | push src => [0x50 + src.code]
  | pop dst => [0x58 + dst.code]
  | addImm dst value => immArith 0 0x05 dst value
  | subImm dst value => immArith 5 0x2d dst value
  | movReg dst src => [0x89, regOperand src.code dst]
  | add dst src => [0x01, regOperand src.code dst]
  | sub dst src => [0x29, regOperand src.code dst]
  | imul dst src => [0x0f, 0xaf, regOperand dst.code src]
  | cwd => [0x99]
  | idiv divisor => [0xf7, regOperand 7 divisor]
  | cmp lhs rhs => [0x39, regOperand rhs.code lhs]
  | xor dst src => [0x31, regOperand src.code dst]
  | test lhs rhs => [0x85, regOperand rhs.code lhs]
  | jcc cond rel => [cond.opcode, rel.toUInt8]
  | jmpShort rel => [0xeb, rel.toUInt8]
  | jmpNear rel => 0xe9 :: Word.bytes rel
  | callReg target => [0xff, regOperand 2 target]
  | jmpReg target => [0xff, regOperand 4 target]
  | ret => [0xc3]
  | dosCall function => [0xb4, function.number, 0xcd, 0x21]

end Instr

end DotCom
