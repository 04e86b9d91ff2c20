/-
  DotCom.Machine.Memory — the memory of one segment: 65536 bytes, addresses wrapping round.

  - `read_write_self`, `read_write_ne`: a write is seen at its address and nowhere else.
  - `readWord_writeWord`: a word reads back as it was written.
-/

import DotCom.Word

namespace DotCom

structure Memory where
  cells : Vector UInt8 65536

namespace Memory

def read (m : Memory) (addr : UInt16) : UInt8 := getElem m.cells addr.toNat addr.toNat_lt

def write (m : Memory) (addr : UInt16) (b : UInt8) : Memory := ⟨m.cells.set addr.toNat b addr.toNat_lt⟩

def readWord (m : Memory) (addr : UInt16) : UInt16 := Word.ofBytes (m.read addr) (m.read (addr + 1))

def writeWord (m : Memory) (addr value : UInt16) : Memory :=
  (m.write addr (Word.low value)).write (addr + 1) (Word.high value)

/-- Memory that holds `bytes` from `start` on and is zero elsewhere. -/
def ofBytes (start : Nat) (bytes : Array UInt8) : Memory :=
  ⟨Vector.ofFn fun i => if start ≤ i then bytes.getD (i - start) 0 else 0⟩

@[simp] theorem read_write_self (m : Memory) (addr : UInt16) (b : UInt8) : (m.write addr b).read addr = b := by
  simp [read, write]

theorem read_write_ne (m : Memory) {a c : UInt16} (b : UInt8) (h : a ≠ c) : (m.write a b).read c = m.read c := by
  have : a.toNat ≠ c.toNat := fun e => h (UInt16.toNat_inj.1 e)
  simp [read, write, this]

@[simp] theorem readWord_writeWord (m : Memory) (addr v : UInt16) : (m.writeWord addr v).readWord addr = v := by
  have h : addr + 1 ≠ addr := by simp
  simp [readWord, writeWord, read_write_ne _ _ h]

end Memory

end DotCom
