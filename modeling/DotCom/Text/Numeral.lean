/-
  DotCom.Text.Numeral — numbers in base sixteen, as messages show addresses and bytes.
-/

namespace DotCom.Text

/-- The digits of a number in base sixteen, lower case, without leading zeros. -/
def hexDigits (n : Nat) : String := String.ofList (Nat.toDigits 16 n)

/-- A number in base sixteen after `0x`, with at least `width` digits. -/
def hex (width n : Nat) : String :=
  let digits := Nat.toDigits 16 n
  "0x" ++ String.ofList (List.replicate (width - digits.length) '0' ++ digits)

end DotCom.Text
