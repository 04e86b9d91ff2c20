/-
  DotCom.Word — 16-bit words as two bytes, the low one first.
-/

namespace DotCom.Word

def low (w : UInt16) : UInt8 := w.toUInt8

def high (w : UInt16) : UInt8 := (w / 256).toUInt8

def bytes (w : UInt16) : List UInt8 := [low w, high w]

def ofBytes (low high : UInt8) : UInt16 := low.toUInt16 + 256 * high.toUInt16

/-- A byte read as a signed number and widened. -/
def signExtend (b : UInt8) : UInt16 := b.toInt8.toInt16.toUInt16

@[simp] theorem length_bytes (w : UInt16) : (bytes w).length = 2 := rfl

@[simp] theorem ofBytes_low_high (w : UInt16) : ofBytes (low w) (high w) = w := by
  apply UInt16.toNat_inj.1
  have := w.toNat_lt
  simp [ofBytes, low, high]
  omega

@[simp] theorem low_ofBytes (l h : UInt8) : low (ofBytes l h) = l := by
  apply UInt8.toNat_inj.1
  simp [ofBytes, low]

@[simp] theorem high_ofBytes (l h : UInt8) : high (ofBytes l h) = h := by
  apply UInt8.toNat_inj.1
  have := l.toNat_lt
  have := h.toNat_lt
  simp [ofBytes, high]
  omega

end DotCom.Word
