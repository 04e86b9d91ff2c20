/-
  DotCom.Proofs.Words — words as signed numbers and as addresses.
-/

import DotCom.Word

namespace DotCom.Word

/-- A word as a signed number: those from 2¹⁵ on are negative. -/
theorem toInt_toInt16 (w : UInt16) :
    w.toInt16.toInt = if w.toNat < 32768 then (w.toNat : Int) else (w.toNat : Int) - 65536 := by
  have h : w.toInt16.toInt = w.toBitVec.toInt := rfl
  rw [h, BitVec.toInt_eq_toNat_cond]
  have e : w.toBitVec.toNat = w.toNat := rfl
  rw [e]
  split <;> split <;> omega

theorem toInt_toInt16_of_lt {w : UInt16} (h : w.toNat < 32768) : w.toInt16.toInt = w.toNat := by
  rw [toInt_toInt16, if_pos h]

/-- A sum that does not wrap round. -/
theorem toNat_add {a b : UInt16} {c : Nat} (h : a.toNat + b.toNat = c) (hc : c < 65536) :
    (a + b).toNat = a.toNat + b.toNat := by
  rw [UInt16.toNat_add]
  omega

end DotCom.Word
