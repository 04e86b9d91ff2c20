/-
  DotCom.Frame — where the variables of a function live. Each declaration adds its bytes to one
  running total, and its variable lies that many bytes below `bp`; nothing is given back before
  the function ends. The total stays in the range of a signed word.

  - `offset?_of_reserve`: a new slot moves no other.
-/

import DotCom.CompileError

namespace DotCom

structure Frame where
  function : String
  /-- Bytes reserved below `bp`. -/
  allocated : UInt16 := 0
  /-- Each variable and its distance below `bp`, newest first. -/
  slots : List (String × UInt16) := []
  deriving DecidableEq, Repr

namespace Frame

/-- Operations on a frame, which stays as it was when they fail. -/
abbrev Edit := EStateM Failure Frame

def maxAllocated : Nat := 32767

def offset? (frame : Frame) (name : String) : Option UInt16 := frame.slots.lookup name

def contains (frame : Frame) (name : String) : Bool := (frame.offset? name).isSome

/-- The total as a signed immediate. -/
def frameSize (frame : Frame) : Int16 :=
  if frame.allocated.toNat ≤ maxAllocated then frame.allocated.toInt16 else Int16.maxValue

def ensureUndeclared (frame : Frame) (name : String) : Except Failure Unit :=
  if frame.contains name then .error (.rejected (.redeclaration name frame.function)) else .ok ()

/-- Reserves `size` more bytes for a name; its distance below `bp` is the new total. -/
def reserve (name : String) (size : UInt16) : Edit UInt16 := fun frame =>
  if frame.allocated.toNat + size.toNat ≤ maxAllocated then
    let total := frame.allocated + size
    .ok total { frame with allocated := total, slots := (name, total) :: frame.slots }
  else .error (.rejected (.frameTooLarge frame.function)) frame

/-- A new slot lies at the new total and every other name keeps its slot. -/
theorem offset?_of_reserve {frame after : Frame} {name : String} {size offset : UInt16}
    (h : reserve name size frame = .ok offset after) (other : String) :
    after.offset? other = if other = name then some after.allocated else frame.offset? other := by
  unfold reserve at h
  split at h
  · injection h with _ h
    subst h
    by_cases same : other = name <;> simp [offset?, List.lookup_cons, same, beq_eq_false_iff_ne.2]
  · contradiction

def declare (name : String) (size : UInt16) : Edit UInt16 := fun frame =>
  match frame.ensureUndeclared name with
  | .error e => .error e frame
  | .ok () => reserve name size frame

def displacement (frame : Frame) (name : String) : Except Failure Int16 :=
  match frame.offset? name with
  | none => .error (.rejected (.undefinedIdentifier name frame.function))
  | some offset =>
    if offset.toInt16 = Int16.minValue then .error .crashed else .ok (-offset.toInt16)

end Frame

/-- The frames of the functions being compiled, innermost first. -/
abbrev Frames := List Frame

namespace Frames

def top (frames : Frames) : Except Failure Frame :=
  match frames with
  | frame :: _ => .ok frame
  | [] => .error (.rejected .noActiveScope)

def push (frame : Frame) : EStateM Failure Frames Unit := modify fun frames => frame :: frames

/-- Closes the innermost frame, if one is open. -/
def pop : EStateM Failure Frames (Option Frame) := modifyGet fun frames => (frames.head?, frames.tail)

def onTop {α : Type} (edit : Frame.Edit α) : EStateM Failure Frames α := fun frames =>
  match frames with
  | [] => .error (.rejected .noActiveScope) []
  | frame :: rest =>
    match edit frame with
    | .ok a frame => .ok a (frame :: rest)
    | .error e frame => .error e (frame :: rest)

end Frames

end DotCom
