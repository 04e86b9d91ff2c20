/-
  DotCom.Machine.Run — running images. An image is loaded at 0x100 with the stack at the top of
  the segment, and runs until it exits through the operating system, faults, or has used up its
  steps. Printing a string looks for its sentinel round the whole segment; if there is none, it
  never ends.
-/

import DotCom.Machine.Operation

namespace DotCom

inductive Step where
  | running (m : Machine)
  | exited (code : UInt8) (m : Machine)
  | faulted (f : Fault)
  /-- The step does not end. -/
  | endless

namespace Machine

/-! ## Operands -/

def frameAddr (m : Machine) (disp : UInt16) : UInt16 := m.regs.bp + disp

def fetch (m : Machine) : Place → UInt16
  | .reg r => m.regs.get r
  | .abs addr => m.memory.readWord addr
  | .frame disp => m.memory.readWord (m.frameAddr disp)

def put (m : Machine) (p : Place) (v : UInt16) : Machine :=
  match p with
  | .reg r => m.set r v
  | .abs addr => m.store addr v
  | .frame disp => m.store (m.frameAddr disp) v

def value (m : Machine) : Source → UInt16
  | .place p => m.fetch p
  | .imm v => v

/-! ## Arithmetic -/

def arith (m : Machine) (op : Arith) (dst : Place) (src : Source) : Machine :=
  let lhs := m.fetch dst
  let rhs := m.value src
  match op with
  | .add => { m with flags := .ofSum lhs rhs }.put dst (lhs + rhs)
  | .sub => { m with flags := .ofDifference lhs rhs }.put dst (lhs - rhs)
  | .xor => { m with flags := .ofResult (lhs ^^^ rhs) }.put dst (lhs ^^^ rhs)
  | .cmp => { m with flags := .ofDifference lhs rhs }
  | .test => { m with flags := .ofResult (lhs &&& rhs) }

/-- Divides `dx` and `ax`, signed and toward zero. -/
def divide (m : Machine) (divisor addr : UInt16) : Step :=
  let d := divisor.toInt16.toInt
  let n := Int.bmod (65536 * m.regs.dx.toNat + m.regs.ax.toNat) 0x100000000
  let q := n.tdiv d
  if d = 0 then .faulted (.divideByZero addr)
  else if q = 0x80000000 then .faulted .quotientTooWide
  else if q < -32768 ∨ 32767 < q then .faulted (.divideOverflow addr)
  else .running ((m.set .ax (UInt16.ofInt q)).set .dx (UInt16.ofInt (n.tmod d)))

/-! ## The operating system -/

/-- The bytes from an address up to the sentinel, behind `acc`; `none` if it is not among the
    next `n`. -/
def printed (memory : Memory) : Nat → UInt16 → Array UInt8 → Option (Array UInt8)
  | 0, _, _ => none
  | n + 1, addr, acc =>
    let b := memory.read addr
    if b = DosFunction.sentinel then some acc else printed memory n (addr + 1) (acc.push b)

/-- A call of the operating system, whose function `ah` tells. -/
def dos (m : Machine) : Step :=
  let number := Word.high m.regs.ax
  if number = DosFunction.printString.number then
    match printed m.memory 65536 m.regs.dx #[] with
    | some bytes => .running { m with output := m.output ++ bytes }
    | none => .endless
  else if number = DosFunction.exit.number then .exited (Word.low m.regs.ax) m
  else .faulted (.dosFunction number)

/-! ## Steps -/

/-- Does an operation that stood at `addr`; `ip` is already behind it. -/
def perform (m : Machine) (addr : UInt16) : Operation → Step
  | .move dst src => .running (m.put dst (m.value src))
  | .moveHigh v => .running (m.set .ax (Word.ofBytes (Word.low m.regs.ax) v))
  | .push src => .running (m.push (m.fetch src))
  | .pop dst => .running (m.drop.set dst m.top)
  | .call target =>
    let entry := m.fetch target
    .running { m.push m.ip with ip := entry }
  | .jump target => .running { m with ip := m.fetch target }
  | .arith op dst src => .running (m.arith op dst src)
  | .multiply dst src => .running (m.set dst (m.regs.get dst * m.fetch src))
  | .widen => .running (m.set .dx (if Flags.negative m.regs.ax then 0xffff else 0))
  | .divide divisor => m.divide (m.fetch divisor) addr
  | .jumpIf cond rel => .running (if cond.holds m.flags then { m with ip := m.ip + rel } else m)
  | .jumpBy rel => .running { m with ip := m.ip + rel }
  | .ret =>
    let back := m.top
    let m := m.drop
    .running { m with ip := back, returns := m.returns.push m.regs.ax }
  | .dos => m.dos

def step (m : Machine) : Step :=
  match m.memory.decode m.ip with
  | .error f => .faulted f
  | .ok (op, next) => { m with ip := next }.perform m.ip op

end Machine

/-! ## Whole runs -/

/-- What a program did before it exited. -/
structure Outcome where
  exitCode : UInt8
  output : Array UInt8
  /-- `ax` at every return, in order. -/
  returns : Array UInt16
  deriving DecidableEq, Repr

namespace Outcome

/-- The output, each byte as the character with its number. -/
def text (o : Outcome) : String := o.output.foldl (fun s b => s.push (Char.ofNat b.toNat)) ""

end Outcome

inductive Ending where
  | exited (o : Outcome)
  | faulted (f : Fault)
  | endless
  deriving DecidableEq, Repr

namespace Machine

def stepLimit : Nat := 1000000

def runFor : Nat → Machine → Ending
  | 0, _ => .faulted (.stepLimit stepLimit)
  | n + 1, m =>
    match m.step with
    | .running m => runFor n m
    | .exited code m => .exited ⟨code, m.output, m.returns⟩
    | .faulted f => .faulted f
    | .endless => .endless

def load (image : Array UInt8) : Machine :=
  { memory := .ofBytes 0x100 image, regs := { sp := 0xfffe }, ip := 0x100 }

def run (image : Array UInt8) : Ending :=
  if 0x100 + image.size ≤ 65536 then runFor stepLimit (load image) else .faulted .imageTooLarge

end Machine

end DotCom
