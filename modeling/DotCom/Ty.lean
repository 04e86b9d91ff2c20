/-
  DotCom.Ty — the types a declaration can name: a base and a number of stars.

  A plain `char` cell is one byte, which no instruction of the image addresses, so it has no
  size; everything else takes a word.
-/

namespace DotCom

inductive Base where
  | int
  | char
  deriving DecidableEq, Repr

/-- A base type and the number of stars that follow it. -/
structure Ty where
  base : Base
  depth : UInt32
  deriving DecidableEq, Repr

namespace Ty

def int : Ty := ⟨.int, 0⟩

def char : Ty := ⟨.char, 0⟩

/-- The type with one more star; there is none past 2³² - 1 stars. -/
def pointer? (t : Ty) : Option Ty :=
  if t.depth.toNat + 1 < UInt32.size then some { t with depth := t.depth + 1 } else none

def isPointer (t : Ty) : Bool := 0 < t.depth

def isInteger (t : Ty) : Bool := t.depth == 0 && t.base == .int

/-- Bytes of the frame that a variable of this type takes. -/
def size? (t : Ty) : Option UInt16 :=
  if t.isPointer then some 2
  else match t.base with
    | .int => some 2
    | .char => none

def baseName : Base → String
  | .int => "int"
  | .char => "char"

/-- The spelling of a type: its base, then its stars. -/
def spelling (t : Ty) : String :=
  baseName t.base ++ String.ofList (List.replicate t.depth.toNat '*')

end Ty

end DotCom
