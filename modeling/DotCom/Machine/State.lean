/-
  DotCom.Machine.State — the processor: registers, the flags that conditional jumps look at, the
  address of the next instruction, and what the program has written and returned so far.
-/

import DotCom.Instr
import DotCom.Machine.Memory

namespace DotCom

structure Registers where
  ax : UInt16 := 0
  cx : UInt16 := 0
  dx : UInt16 := 0
  bx : UInt16 := 0
  sp : UInt16 := 0
  bp : UInt16 := 0
  si : UInt16 := 0
  di : UInt16 := 0
  deriving DecidableEq, Repr

namespace Registers

def get (rs : Registers) : Reg → UInt16
  | .ax => rs.ax
  | .cx => rs.cx
  | .dx => rs.dx
  | .bx => rs.bx
  | .sp => rs.sp
  | .bp => rs.bp
  | .si => rs.si
  | .di => rs.di

def set (rs : Registers) (r : Reg) (v : UInt16) : Registers :=
  match r with
  | .ax => { rs with ax := v }
  | .cx => { rs with cx := v }
  | .dx => { rs with dx := v }
  | .bx => { rs with bx := v }
  | .sp => { rs with sp := v }
  | .bp => { rs with bp := v }
  | .si => { rs with si := v }
  | .di => { rs with di := v }

theorem get_set (rs : Registers) (r s : Reg) (v : UInt16) :
    (rs.set r v).get s = if s = r then v else rs.get s := by
  cases r <;> cases s <;> rfl

end Registers

structure Flags where
  zero : Bool := false
  sign : Bool := false
  overflow : Bool := false
  deriving DecidableEq, Repr

namespace Flags

/-- The top bit of a word. -/
def negative (w : UInt16) : Bool := w &&& 0x8000 != 0

/-- The flags of a result that cannot overflow. -/
def ofResult (w : UInt16) : Flags := ⟨w == 0, negative w, false⟩

/-- The flags of `lhs + rhs`. -/
def ofSum (lhs rhs : UInt16) : Flags :=
  let result := lhs + rhs
  { ofResult result with overflow := negative (~~~(lhs ^^^ rhs) &&& (lhs ^^^ result)) }

/-- The flags of `lhs - rhs`. -/
def ofDifference (lhs rhs : UInt16) : Flags :=
  let result := lhs - rhs
  { ofResult result with overflow := negative ((lhs ^^^ rhs) &&& (lhs ^^^ result)) }

end Flags

/-- Whether a condition holds under the flags of a comparison. -/
def Cond.holds (f : Flags) : Cond → Bool
  | equal => f.zero
  | notEqual => !f.zero
  | less => f.sign != f.overflow
  | greaterOrEqual => f.sign == f.overflow
  | lessOrEqual => f.zero || f.sign != f.overflow
  | greater => !f.zero && f.sign == f.overflow

structure Machine where
  memory : Memory
  regs : Registers
  ip : UInt16
  flags : Flags := {}
  output : Array UInt8 := #[]
  /-- `ax` at every return so far. -/
  returns : Array UInt16 := #[]

namespace Machine

def set (m : Machine) (r : Reg) (v : UInt16) : Machine := { m with regs := m.regs.set r v }

def store (m : Machine) (addr v : UInt16) : Machine := { m with memory := m.memory.writeWord addr v }

def push (m : Machine) (v : UInt16) : Machine :=
  let sp := m.regs.sp - 2
  (m.set .sp sp).store sp v

/-- The word on top of the stack. -/
def top (m : Machine) : UInt16 := m.memory.readWord m.regs.sp

/-- Takes a word off the stack. -/
def drop (m : Machine) : Machine := m.set .sp (m.regs.sp + 2)

end Machine

end DotCom
