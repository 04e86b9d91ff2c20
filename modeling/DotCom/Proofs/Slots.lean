/-
  DotCom.Proofs.Slots — the slots of a frame that is built by declarations: words that lie inside
  the bytes reserved below `bp`, no two of them overlapping.

  - `Frame.Built.sound`: declarations of a word or more make a sound frame.
  - `Frame.displacement_eq`: in a sound frame the displacement of a slot is minus its offset.
-/

import DotCom.Proofs.Layout
import DotCom.Proofs.Words

namespace DotCom

namespace Frame

/-- The slots of a frame are words inside its bytes, and lie apart. -/
structure Sound (frame : Frame) : Prop where
  small : frame.allocated.toNat ≤ maxAllocated
  inside : ∀ {name offset}, frame.offset? name = some offset →
    2 ≤ offset.toNat ∧ offset.toNat ≤ frame.allocated.toNat
  apart : ∀ {name other offset offset'}, frame.offset? name = some offset → frame.offset? other = some offset' →
    name ≠ other → offset.toNat + 2 ≤ offset'.toNat ∨ offset'.toNat + 2 ≤ offset.toNat

theorem contains_iff {frame : Frame} {name : String} :
    frame.contains name ↔ ∃ offset, frame.offset? name = some offset := by
  rw [contains, Option.isSome_iff_exists]

theorem disp_eq {frame : Frame} {name : String} {offset : UInt16} (h : frame.offset? name = some offset) :
    frame.disp name = -offset.toInt16 := by
  rw [disp, h, Option.getD_some]

/-! ## One more slot -/

theorem declare_of_contains {frame : Frame} {name : String} (h : frame.contains name) (size : UInt16) :
    Frame.declare name size frame = .error (.rejected (.redeclaration name frame.function)) frame := by
  simp only [Frame.declare, ensureUndeclared, if_pos h]

theorem declare_of_not_contains {frame : Frame} {name : String} (h : ¬ frame.contains name) (size : UInt16) :
    Frame.declare name size frame = reserve name size frame := by
  simp only [Frame.declare, ensureUndeclared, if_neg h]

theorem allocated_of_reserve {frame frame' : Frame} {name : String} {size total : UInt16}
    (hr : reserve name size frame = .ok total frame') :
    frame'.allocated.toNat = frame.allocated.toNat + size.toNat ∧ frame'.allocated.toNat ≤ maxAllocated := by
  unfold reserve at hr
  split at hr
  · rename_i room
    cases hr
    have sum : (frame.allocated + size).toNat = frame.allocated.toNat + size.toNat :=
      Word.toNat_add rfl (Nat.lt_of_le_of_lt room (by decide))
    exact ⟨sum, sum ▸ room⟩
  · cases hr

theorem reserve_two {frame : Frame} (name : String) (room : frame.allocated.toNat + 2 ≤ maxAllocated) :
    reserve name 2 frame = .ok (frame.allocated + 2) (frame.bind name) := if_pos room

theorem offset?_bind (frame : Frame) (name other : String) :
    (frame.bind name).offset? other = if other = name then some (frame.allocated + 2) else frame.offset? other := by
  by_cases same : other = name <;> simp [bind, offset?, List.lookup_cons, same, beq_eq_false_iff_ne.2]

theorem toNat_allocated_bind {frame : Frame} (name : String) (h : frame.allocated.toNat + 2 ≤ maxAllocated) :
    (frame.bind name).allocated.toNat = frame.allocated.toNat + 2 :=
  (allocated_of_reserve (reserve_two name h)).1

theorem Sound.start (function : String) : Sound { function } where
  small := Nat.zero_le _
  inside h := nomatch h
  apart h := nomatch h

/-- One more slot of a word or more. -/
theorem Sound.reserve {frame frame' : Frame} (h : frame.Sound) {name : String} {size total : UInt16}
    (hr : Frame.reserve name size frame = .ok total frame') (word : 2 ≤ size.toNat) : frame'.Sound := by
  have offsets := offset?_of_reserve hr
  obtain ⟨grown, small⟩ := allocated_of_reserve hr
  refine ⟨small, ?_, ?_⟩
  · intro other offset ho
    rw [offsets] at ho
    split at ho
    · cases ho
      omega
    · have := h.inside ho
      omega
  · intro a b offset offset' ha hb ne
    rw [offsets] at ha hb
    split at ha <;> split at hb
    · exact absurd (by rw [‹a = name›, ‹b = name›]) ne
    · cases ha
      have := h.inside hb
      omega
    · cases hb
      have := h.inside ha
      omega
    · exact h.apart ha hb ne

theorem Sound.bind {frame : Frame} (h : frame.Sound) {name : String}
    (room : frame.allocated.toNat + 2 ≤ maxAllocated) : (frame.bind name).Sound :=
  h.reserve (reserve_two name room) (Nat.le_refl 2)

/-- Frames that declarations have made, each of a word or more. -/
inductive Built : Frame → Prop
  | start (function : String) : Built { function }
  | declare {frame frame' : Frame} {name : String} {size total : UInt16} (built : Built frame)
      (declared : Frame.declare name size frame = .ok total frame') (word : 2 ≤ size.toNat) : Built frame'

theorem Built.sound {frame : Frame} (h : frame.Built) : frame.Sound := by
  induction h with
  | start function => exact Sound.start function
  | @declare frame _ name _ _ _ declared word ih =>
    by_cases hc : frame.contains name
    · rw [declare_of_contains hc] at declared
      cases declared
    · rw [declare_of_not_contains hc] at declared
      exact ih.reserve declared word

/-! ## Displacements -/

theorem displacement_of_offset {frame : Frame} {name : String} {offset : UInt16} (ho : frame.offset? name = some offset)
    (small : offset.toNat ≤ maxAllocated) : frame.displacement name = .ok (-offset.toInt16) := by
  rw [maxAllocated] at small
  have ne : offset.toInt16 ≠ Int16.minValue := by
    intro e
    have : offset.toInt16.toInt = offset.toNat := Word.toInt_toInt16_of_lt (by omega)
    rw [e] at this
    have : Int16.minValue.toInt = -32768 := rfl
    omega
  rw [displacement, ho]
  simp only [if_neg ne]

/-- A small offset has a negative. -/
theorem toInt_neg_offset {offset : UInt16} (small : offset.toNat ≤ maxAllocated) :
    (-offset.toInt16).toInt = -(offset.toNat : Int) := by
  rw [maxAllocated] at small
  have signed : offset.toInt16.toInt = offset.toNat := Word.toInt_toInt16_of_lt (by omega)
  rw [Int16.toInt_neg, signed, Int.bmod_def]
  split <;> omega

theorem Sound.offset_le {frame : Frame} (h : frame.Sound) {name : String} {offset : UInt16}
    (ho : frame.offset? name = some offset) : offset.toNat ≤ maxAllocated :=
  Nat.le_trans (h.inside ho).2 h.small

theorem displacement_eq {frame : Frame} (h : frame.Sound) {name : String} (hc : frame.contains name) :
    frame.displacement name = .ok (frame.disp name) := by
  obtain ⟨offset, ho⟩ := contains_iff.1 hc
  rw [displacement_of_offset ho (h.offset_le ho), disp_eq ho]

theorem displacement_error {frame : Frame} {name : String} (hc : ¬ frame.contains name) :
    frame.displacement name = .error (.rejected (.undefinedIdentifier name frame.function)) := by
  have : frame.offset? name = none := by simpa [contains] using hc
  rw [displacement, this]

theorem frameSize_eq {frame : Frame} (h : frame.Sound) : frame.frameSize = frame.allocated.toInt16 := by
  rw [frameSize, if_pos h.small]

end Frame

end DotCom
