/-
  DotCom.Proofs.Capacity — one program compiled with less room and with more. A smaller capacity
  changes nothing about a run but where it stops: up to the first chunk that does not fit the two
  runs are in the same state, and the only failure that comes of it is the overflow.

  - `Comparison.cramped`: the two runs.
  - `Program.capacity_only_cuts`: what this says of images and errors.
-/

import DotCom.Proofs.Lowering.Pairs

namespace DotCom

/-- The same state twice, but for the capacity. -/
def Comparison.cramped {small large : Nat} (le : small ≤ large) : Comparison where
  names := Eq
  exact := True
  fixed := True
  chains := True
  floor := 0
  below _ := True
  capacities c d := c = large ∧ d = small
  images i j := j = { i with capacity := small } ∧ i.capacity = large ∧ i.size ≤ small
  tables := Eq
  builtin := @eq_puts_iff
  narrower h := h.1 ▸ h.2 ▸ le
  size h := h.1 ▸ rfl
  low _ := Nat.zero_le _
  capacity h := ⟨h.2.1, h.1 ▸ rfl⟩
  address h _ := h.1 ▸ rfl
  append h chunks _ fits := by
    obtain ⟨rfl, large, -⟩ := h
    obtain rfl := chunks.same trivial
    refine ⟨rfl, large, ?_⟩
    rw [Image.size_append]
    exact fits
  overwrite h _ chunks := by
    obtain ⟨rfl, large, room⟩ := h
    obtain rfl := chunks.same trivial
    exact ⟨rfl, large, by rwa [Image.size, Image.size_overwrite]⟩
  lookup h hab := rel_of_eq (by rw [h, hab])
  define h hab hv _ := by rw [h, hab, hv trivial]

namespace Program

/-- Compiling with less room, beside compiling with more. -/
theorem compile_within (p : Program) (base : UInt16) (entryPoint : String) {small large : Nat} (le : small ≤ large)
    (layout : base.toNat + large ≤ segmentSize) :
    (∃ image, p.compile ⟨base, large, entryPoint⟩ = .ok image ∧ p.compile ⟨base, small, entryPoint⟩ = .ok image ∧
        image.size ≤ small) ∨
      (∃ e e', p.compile ⟨base, large, entryPoint⟩ = .error (.rejected e) ∧
        p.compile ⟨base, small, entryPoint⟩ = .error (.rejected e') ∧ (Comparison.cramped le).Errors e e') ∨
      ∃ needed, p.compile ⟨base, small, entryPoint⟩ = .error (.rejected (.bufferOverflow needed small)) ∧
        small < needed ∧ needed ≤ large := by
  have long : p.compile ⟨base, large, entryPoint⟩ = _ := compile_eq_lower layout
  have short : p.compile ⟨base, small, entryPoint⟩ = _ :=
    compile_eq_lower (Nat.le_trans (Nat.add_le_add_left le _) layout)
  have start : (Comparison.cramped le).Related .outside { image := ⟨#[], base, large⟩ }
      { image := ⟨#[], base, small⟩ } :=
    ⟨⟨rfl, rfl, Nat.zero_le _⟩, rfl, trivial⟩
  have runs : (Comparison.cramped le).Steps 0 .outside .outside (p.lower entryPoint) (p.lower entryPoint) :=
    Program.paired_lower (.refl (fun _ => rfl) (.inl trivial)) rfl fun _ => rfl
  have ends := runs start (Nat.zero_le _)
  rw [long, short]
  generalize p.lower entryPoint { image := ⟨#[], base, large⟩ } = r at ends
  generalize p.lower entryPoint { image := ⟨#[], base, small⟩ } = s at ends
  cases ends with
  | @ok _ _ g h states =>
    obtain ⟨same, -, room⟩ := states.image
    refine .inl ⟨g.image.bytes, rfl, ?_, room⟩
    rw [imageOf, same]
  | refused errors => exact .inr (.inl ⟨_, _, rfl, rfl, errors⟩)
  | parted cut =>
    obtain ⟨needed, _, _, ⟨rfl, rfl⟩, beyond, inside, rfl⟩ := cut
    exact .inr (.inr ⟨needed, rfl, beyond, inside⟩)

/-- An image needs no more room than it has bytes. -/
theorem compile_tight {p : Program} {base : UInt16} {capacity : Nat} {entryPoint : String} {image : Array UInt8}
    (h : p.compile ⟨base, capacity, entryPoint⟩ = .ok image) :
    image.size ≤ capacity ∧ p.compile ⟨base, image.size, entryPoint⟩ = .ok image := by
  have layout := layout_of_compile h
  obtain ⟨formed, room, code⟩ := of_compile h
  have size : image.size = p.size := by rw [← Array.length_toList, code, length_code]
  have inside : image.size ≤ capacity := size ▸ room
  have layout' : base.toNat + image.size ≤ segmentSize := Nat.le_trans (Nat.add_le_add_left inside _) layout
  refine ⟨inside, ?_⟩
  rw [@compile_eq_code p ⟨base, image.size, entryPoint⟩ layout' formed (Nat.le_of_eq size.symm)]
  exact congrArg (fun bytes => Except.ok bytes.toArray) code.symm

/-- With less room, an image that still fits is the same, one that does not fit is an overflow by
    bytes of that image, and a program that is refused is refused for the same reason or because the
    room is used up before. -/
theorem capacity_only_cuts (p : Program) (base : UInt16) (entryPoint : String) {small large : Nat} (le : small ≤ large)
    (layout : base.toNat + large ≤ segmentSize) :
    (∀ image, p.compile ⟨base, small, entryPoint⟩ = .ok image →
        p.compile ⟨base, large, entryPoint⟩ = .ok image ∧ image.size ≤ small) ∧
      (∀ image, p.compile ⟨base, large, entryPoint⟩ = .ok image → small < image.size →
        ∃ needed, p.compile ⟨base, small, entryPoint⟩ = .error (.rejected (.bufferOverflow needed small)) ∧
          small < needed ∧ needed ≤ image.size) ∧
      ∀ e, p.compile ⟨base, large, entryPoint⟩ = .error (.rejected e) →
        (∀ needed capacity, e ≠ .bufferOverflow needed capacity) →
        p.compile ⟨base, small, entryPoint⟩ = .error (.rejected e) ∨
          ∃ needed, p.compile ⟨base, small, entryPoint⟩ = .error (.rejected (.bufferOverflow needed small)) := by
  refine ⟨fun image h => ?_, fun image h big => ?_, fun e h other => ?_⟩
  · rcases p.compile_within base entryPoint le layout with
      ⟨full, long, short, room⟩ | ⟨_, _, -, short, -⟩ | ⟨_, short, -⟩
    · rw [short] at h
      cases h
      exact ⟨long, room⟩
    · rw [short] at h
      cases h
    · rw [short] at h
      cases h
  · -- Beside a run that has just the room of the image, a chunk that does not fit is inside the image.
    obtain ⟨inside, tight⟩ := compile_tight h
    have layout' : base.toNat + image.size ≤ segmentSize := Nat.le_trans (Nat.add_le_add_left inside _) layout
    rcases p.compile_within base entryPoint (Nat.le_of_lt big) layout' with
      ⟨_, long, -, room⟩ | ⟨_, _, long, -⟩ | ⟨needed, short, beyond, within⟩
    · rw [tight] at long
      cases long
      omega
    · rw [tight] at long
      cases long
    · exact ⟨needed, short, beyond, within⟩
  · rcases p.compile_within base entryPoint le layout with
      ⟨_, long, -⟩ | ⟨f, f', long, short, errors⟩ | ⟨needed, short, -⟩
    · rw [long] at h
      cases h
    · rw [long] at h
      cases h
      cases errors with
      | same _ same => exact .inl (same trivial ▸ short)
      | overflow n rooms => exact absurd rfl (other _ _)
    · exact .inr ⟨needed, short⟩

/-- One byte less than the sample needs. -/
theorem sample_cut_short :
    sample.size - 1 ≤ sample.size ∧ (0x100 : UInt16).toNat + sample.size ≤ segmentSize ∧
      ∃ image needed, sample.compile ⟨0x100, sample.size, "main"⟩ = .ok image ∧
        sample.compile ⟨0x100, sample.size - 1, "main"⟩ =
          .error (.rejected (.bufferOverflow needed (sample.size - 1))) ∧
        sample.size - 1 < needed ∧ needed ≤ image.size := by
  have layout : (0x100 : UInt16).toNat + sample.size ≤ segmentSize := by decide +kernel
  have compiled := @compile_eq_code sample ⟨0x100, sample.size, "main"⟩ layout (by decide +kernel) (Nat.le_refl _)
  have size : (sample.code 0x100 "main").toArray.size = sample.size := by rw [List.size_toArray, length_code]
  have positive : 0 < sample.size := by decide +kernel
  obtain ⟨needed, refused, beyond, inside⟩ :=
    (capacity_only_cuts sample 0x100 "main" (Nat.sub_le sample.size 1) layout).2.1 _ compiled (by rw [size]; omega)
  exact ⟨Nat.sub_le _ _, layout, _, needed, compiled, refused, beyond, inside⟩

end Program

end DotCom
