/-
  DotCom.Image — a code image under construction: bytes that are only appended, up to a
  capacity, and placeholders among them that are overwritten once their value is known.

  The steps of a construction keep the image when they fail: `Image.Build` is a state that
  survives the failure.

  - `size_overwrite`, `getElem?_overwrite_outside`: overwriting changes no byte outside its stretch.
-/

import DotCom.CompileError
import DotCom.Word

namespace DotCom

def segmentSize : Nat := 0x10000

structure Image where
  bytes : Array UInt8
  /-- The address of the first byte once the image is loaded. -/
  loadBase : UInt16
  capacity : Nat
  deriving DecidableEq, Repr

inductive Width where
  | byte
  | word
  deriving DecidableEq, Repr

def Width.size : Width → Nat
  | byte => 1
  | word => 2

structure Fixup where
  pos : Nat
  width : Width
  deriving DecidableEq, Repr

/-- The bytes that a value leaves in a placeholder, the low one first. -/
def Fixup.patchBytes (f : Fixup) (value : UInt16) : List UInt8 :=
  (Word.bytes value).take f.width.size

namespace Image

abbrev Build := EStateM Failure Image

/-- The largest number in 64 bits, in which sizes are reckoned. -/
def maxSize : Nat := 0xffffffffffffffff

/-- An empty image, if its whole capacity lies in one segment. The sum of load base and
    capacity must not leave 64 bits. -/
def create (loadBase : UInt16) (capacity : Nat) : Except Failure Image :=
  if maxSize < loadBase.toNat + capacity then .error .crashed
  else if segmentSize < loadBase.toNat + capacity then .error (.rejected (.invalidLayout loadBase capacity))
  else .ok ⟨#[], loadBase, capacity⟩

def size (image : Image) : Nat := image.bytes.size

def addressOf (image : Image) (pos : Nat) : UInt16 := image.loadBase + UInt16.ofNat pos

def address (image : Image) : UInt16 := image.addressOf image.size

/-- Appends all of a chunk, or nothing. -/
def emit (chunk : List UInt8) : Build Unit := fun image =>
  let needed := image.size + chunk.length
  if needed ≤ image.capacity then
    .ok () { image with bytes := image.bytes.appendList chunk }
  else .error (.rejected (.bufferOverflow needed image.capacity)) image

/-- Appends a chunk whose last bytes are a placeholder. -/
def emitFixup (chunk : List UInt8) (width : Width) : Build Fixup := do
  if chunk.length < width.size then
    throw .crashed
  emit chunk
  return ⟨(← get).size - width.size, width⟩

def overwrite (bytes : Array UInt8) (pos : Nat) : List UInt8 → Array UInt8
  | [] => bytes
  | b :: bs => overwrite (bytes.setIfInBounds pos b) (pos + 1) bs

@[simp] theorem size_overwrite (bytes : Array UInt8) (pos : Nat) (bs : List UInt8) :
    (overwrite bytes pos bs).size = bytes.size := by
  induction bs generalizing bytes pos with
  | nil => rfl
  | cons b bs ih => simp [overwrite, ih]

/-- Bytes before and after the stretch stay. -/
theorem getElem?_overwrite_outside {bytes : Array UInt8} {pos i : Nat} {bs : List UInt8}
    (h : i < pos ∨ pos + bs.length ≤ i) : (overwrite bytes pos bs)[i]? = bytes[i]? := by
  induction bs generalizing bytes pos with
  | nil => rfl
  | cons b bs ih =>
    rw [List.length_cons] at h
    rw [overwrite, ih (by omega), Array.getElem?_setIfInBounds_ne (by omega)]

def patch (fixup : Fixup) (value : UInt16) : Build Unit := fun image =>
  if fixup.pos + fixup.width.size ≤ image.size then
    .ok () { image with bytes := overwrite image.bytes fixup.pos (fixup.patchBytes value) }
  else .error .crashed image

end Image

end DotCom
