/-
  DotCom.Proofs.Lowering.Patches — placeholders: what a patch leaves of the bytes that lowering has
  appended. A patch changes its own stretch, so bytes that were appended with a placeholder become
  the same bytes with the value in its place (`gives_patch`).
-/

import DotCom.Proofs.Lowering.Values

namespace DotCom

/-! ## Overwriting -/

theorem Image.toList_overwrite {bytes : Array UInt8} {pos : Nat} {new : List UInt8}
    (h : pos + new.length ≤ bytes.size) :
    (overwrite bytes pos new).toList = bytes.toList.take pos ++ new ++ bytes.toList.drop (pos + new.length) := by
  induction new generalizing bytes pos with
  | nil => simp [overwrite]
  | cons b new ih =>
    rw [List.length_cons] at h
    rw [overwrite, ih (by simp; omega), Array.toList_setIfInBounds]
    have ht : (bytes.toList.set pos b).take (pos + 1) = bytes.toList.take pos ++ [b] := by
      rw [List.take_set, List.take_add_one, List.set_append]
      have hl : (bytes.toList.take pos).length = pos := by simp; omega
      rw [if_neg (by omega), hl, Nat.sub_self, List.getElem?_eq_getElem (by simp; omega)]
      rfl
    have hd : (bytes.toList.set pos b).drop (pos + 1 + new.length) = bytes.toList.drop (pos + 1 + new.length) := by
      rw [List.drop_set, if_pos (by omega)]
    rw [ht, hd, List.length_cons, show pos + 1 + new.length = pos + (new.length + 1) by omega]
    simp

/-- Overwriting a stretch of as many bytes in the middle. -/
theorem Image.overwrite_middle (bytes : Array UInt8) (before old new after : List UInt8) (h : new.length = old.length) :
    overwrite (bytes ++ (before ++ old ++ after)) (bytes.size + before.length) new = bytes ++
      (before ++ new ++ after) := by
  apply Array.ext'
  have total : (bytes ++ (before ++ old ++ after)).size = bytes.size + before.length + old.length + after.length := by
    simp only [← Array.length_toList, Array.toList_appendList, List.length_append]
    omega
  rw [toList_overwrite (by omega)]
  simp only [Array.toList_appendList]
  have hl : bytes.size + before.length = (bytes.toList ++ before).length := by simp
  have hr : bytes.size + before.length + new.length = (bytes.toList ++ before ++ old).length := by simp; omega
  rw [hr, hl, ← List.append_assoc, ← List.append_assoc, List.drop_left, List.append_assoc _ old after, List.take_left]
  simp

/-! ## Steps -/

theorem Image.emit_of_fits {image : Image} {chunk : List UInt8} (h : image.size + chunk.length ≤ image.capacity) :
    Image.emit chunk image = .ok () { image with bytes := image.bytes ++ chunk } := if_pos h

theorem Image.emit_of_not_fits {image : Image} {chunk : List UInt8} (h : ¬ image.size + chunk.length ≤ image.capacity) :
    Image.emit chunk image = .error (.rejected (.bufferOverflow (image.size + chunk.length) image.capacity)) image :=
  if_neg h

@[simp] theorem Image.size_append (image : Image) (chunk : List UInt8) :
    { image with bytes := image.bytes ++ chunk }.size = image.size + chunk.length := by
  simp only [Image.size, ← Array.length_toList, Array.toList_appendList, List.length_append]

theorem Image.emitFixup_of_fits {image : Image} {chunk : List UInt8} {width : Width} (long : width.size ≤ chunk.length)
    (h : image.size + chunk.length ≤ image.capacity) :
    Image.emitFixup chunk width image =
      .ok ⟨image.size + chunk.length - width.size, width⟩ { image with bytes := image.bytes ++ chunk } := by
  have now : (get : Image.Build Image) = fun image => .ok image image := rfl
  simp only [Image.emitFixup, if_neg (Nat.not_lt.2 long), bind, EStateM.bind, Image.emit_of_fits h, now, pure,
    EStateM.pure, Image.size_append]

theorem Image.emitFixup_of_not_fits {image : Image} {chunk : List UInt8} {width : Width}
    (long : width.size ≤ chunk.length) (h : ¬ image.size + chunk.length ≤ image.capacity) :
    Image.emitFixup chunk width image =
      .error (.rejected (.bufferOverflow (image.size + chunk.length) image.capacity)) image := by
  simp only [Image.emitFixup, if_neg (Nat.not_lt.2 long), bind, EStateM.bind, Image.emit_of_not_fits h]

variable {s : Generator} {frame : Frame} {rest : Frames}

namespace Gen

theorem emits_emitFixup (s : Generator) (i : Instr) (width : Width) (h : width.size ≤ i.size) :
    Emits (emitFixup i width) s True ⟨s.image.size + i.size - width.size, width⟩ i.encode s.frames := by
  intro events
  simp only [true_and, Generator.Fits, emitFixup, Gen.onImage]
  by_cases hf : s.image.size + i.encode.length ≤ s.image.capacity
  · refine ⟨fun _ => ⟨events, ?_⟩, fun hn => absurd hf hn⟩
    simp only [Image.emitFixup_of_fits h hf]
    rfl
  · refine ⟨fun hy => absurd hy hf, fun _ => ?_⟩
    simp only [Image.emitFixup_of_not_fits h hf]
    exact ⟨_, _, rfl⟩

/-- A patch of a placeholder among the bytes appended last. -/
theorem gives_patch (s : Generator) (fr : Frames) (fixup : Fixup) (value : UInt16) (before old after : List UInt8)
    (hp : fixup.pos = s.image.size + before.length) (hl : (fixup.patchBytes value).length = old.length)
    (hw : fixup.width.size = old.length) :
    Gives (patch fixup value) (s.extend (before ++ old ++ after) fr) True ()
      (s.extend (before ++ fixup.patchBytes value ++ after) fr) := by
  refine Gives.after (Gives.report _ _) fun events => ⟨fun _ => ⟨events, ?_⟩, fun h => absurd trivial h⟩
  have room : fixup.pos + fixup.width.size ≤ (s.extend (before ++ old ++ after) fr).image.size := by
    simp only [Generator.size_extend, List.length_append, hp, hw]
    omega
  have new := Image.overwrite_middle s.image.bytes before old (fixup.patchBytes value) after hl
  simp only [Gen.onImage, Image.patch, room, if_true]
  simp only [Generator.extend, hp, Image.size, new]

end Gen

end DotCom
