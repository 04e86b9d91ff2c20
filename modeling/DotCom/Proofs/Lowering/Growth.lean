/-
  DotCom.Proofs.Lowering.Growth — what a step of lowering leaves alone, whether it succeeds or not. Two
  runs are looked at side by side: they have the same image and the same functions, and inside a
  function the same innermost frame, but any frames below it.

  - `Image.Grown`: bytes are added behind, and of those before `floor` none has changed.
  - `Comparison.since`: the two runs.
  - `Comparison.Paired.ends_alike`: what a step leaves behind. The image has grown, functions keep their
    addresses, and the frames are those of before, with one more on top where a function has failed.
-/

import DotCom.Proofs.Lowering.Pairs

namespace DotCom

/-! ## Images -/

/-- An image with more bytes, none of those before `floor` having changed. -/
structure Image.Grown (floor : Nat) (image image' : Image) : Prop where
  front : image'.bytes.toList.take floor = image.bytes.toList.take floor
  size : image.size ≤ image'.size
  capacity : image'.capacity = image.capacity
  room : image.size ≤ image.capacity → image'.size ≤ image.capacity

namespace Image.Grown

variable {floor : Nat} {image image' image'' : Image}

theorem refl (floor : Nat) (image : Image) : image.Grown floor image := ⟨rfl, Nat.le_refl _, rfl, id⟩

theorem trans (h : image.Grown floor image') (h' : image'.Grown floor image'') : image.Grown floor image'' where
  front := h'.front.trans h.front
  size := Nat.le_trans h.size h'.size
  capacity := h'.capacity.trans h.capacity
  room hr := h.capacity ▸ h'.room (h.capacity ▸ h.room hr)

/-- What was there is still there. -/
theorem bytes_prefix (h : image.Grown image.size image') : image.bytes.toList <+: image'.bytes.toList := by
  have front := h.front
  rw [Image.size, ← Array.length_toList, List.take_length] at front
  exact front ▸ List.take_prefix _ _

theorem append (hf : floor ≤ image.size) {chunk : List UInt8} (fits : image.size + chunk.length ≤ image.capacity) :
    image.Grown floor { image with bytes := image.bytes ++ chunk } := by
  have total : (image.bytes ++ chunk).size = image.size + chunk.length := Image.size_append image chunk
  refine ⟨?_, ?_, rfl, fun _ => ?_⟩
  · show (image.bytes ++ chunk).toList.take floor = _
    rw [Array.toList_appendList, List.take_append_of_le_length (by rwa [Array.length_toList])]
  · show image.size ≤ (image.bytes ++ chunk).size
    omega
  · show (image.bytes ++ chunk).size ≤ image.capacity
    omega

/-- A value put in the place of bytes from `floor` on. -/
theorem overwrite {pos : Nat} (hp : floor ≤ pos) (value : List UInt8) :
    image.Grown floor { image with bytes := Image.overwrite image.bytes pos value } := by
  have same : (Image.overwrite image.bytes pos value).size = image.bytes.size := Image.size_overwrite ..
  refine ⟨?_, Nat.le_of_eq same.symm, rfl, fun hr => Nat.le_trans (Nat.le_of_eq same) hr⟩
  apply List.ext_getElem?
  intro i
  rw [List.getElem?_take, List.getElem?_take, Array.getElem?_toList, Array.getElem?_toList]
  by_cases hi : i < floor
  · rw [if_pos hi, if_pos hi, Image.getElem?_overwrite_outside (.inl (Nat.lt_of_lt_of_le hi hp))]
  · rw [if_neg hi, if_neg hi]

end Image.Grown

/-! ## Two runs -/

variable {α : Type}

/-- Two runs of a step both succeed with the same result, or are both refused with the same error. -/
def EndsAlike (x : Gen α) (g h : Generator) (Q : α → Generator → Generator → Prop)
    (E : CompileError → Generator → Generator → Prop) : Prop :=
  (∃ a g' h', x g = .ok a g' ∧ x h = .ok a h' ∧ Q a g' h') ∨
    ∃ e g' h', x g = .error (.rejected e) g' ∧ x h = .error (.rejected e) h' ∧ E e g' h'

namespace EndsAlike

variable {x : Gen α} {g h : Generator} {Q Q' : α → Generator → Generator → Prop}
  {E E' : CompileError → Generator → Generator → Prop}

theorem mono (hx : EndsAlike x g h Q E) (hq : ∀ a g' h', Q a g' h' → Q' a g' h')
    (he : ∀ e g' h', E e g' h' → E' e g' h') : EndsAlike x g h Q' E' := by
  rcases hx with ⟨a, g', h', hg, hh, h1⟩ | ⟨e, g', h', hg, hh, h1⟩
  · exact .inl ⟨a, g', h', hg, hh, hq a g' h' h1⟩
  · exact .inr ⟨e, g', h', hg, hh, he e g' h' h1⟩

end EndsAlike

/-- States with the same image and the same functions. -/
structure Generator.SameCode (g h : Generator) : Prop where
  image : g.image = h.image
  functions : g.functions = h.functions

/-- What a step has done to the image and to the functions. -/
structure Generator.Grown (floor : Nat) (g g' : Generator) : Prop where
  image : g.image.Grown floor g'.image
  functions : ∀ {name address}, g.functions.address? name = some address → g'.functions.address? name = some address

/-! ## Frames -/

/-- At most one frame lies on `base`. -/
def OnBase (base frames : Frames) : Prop := frames = base ∨ ∃ frame, frames = frame :: base

/-! ## The comparison -/

/-- Two runs with the same code, seen from a state `start` of the first: bytes are added behind those of
    `start`, its functions keep their addresses, and frames lie on its frames. -/
def Comparison.since (start : Generator) : Comparison where
  names := Eq
  exact := True
  fixed := True
  chains := True
  floor := start.image.size
  below frames := frames = start.frames
  capacities := Eq
  images i j := i = j ∧ start.image.Grown start.image.size i
  tables t u := t = u ∧ ∀ {name address}, start.functions.address? name = some address → t.address? name = some address
  builtin := @eq_puts_iff
  narrower := @capacity_le_of_eq
  size h := congrArg Image.size h.1
  low h := h.2.size
  capacity h := congrArg Image.capacity h.1
  address h _ := congrArg Image.address h.1
  append h chunks fits _ := ⟨by rw [h.1, chunks.same trivial], h.2.trans (.append h.2.size fits)⟩
  overwrite h low chunks := ⟨by rw [h.1, chunks.same trivial], h.2.trans (.overwrite low _)⟩
  lookup h hab := rel_of_eq (by rw [h.1, hab])
  define {t u a b v w} h hab hv new := by
    refine ⟨by rw [h.1, hab, hv trivial], fun {name address} known => ?_⟩
    have defined : FunctionTable.define a v t = .ok () ⟨(a, v) :: t.entries⟩ := by rw [FunctionTable.define, new]
    have other : name ≠ a := by
      rintro rfl
      rw [h.2 known] at new
      cases new
    rw [FunctionTable.address?_of_define defined, if_neg other, h.2 known]

namespace Generator

theorem SameCode.since {g h : Generator} (same : g.SameCode h) : (Comparison.since g).Related .outside g h :=
  ⟨⟨same.image, .refl _ _⟩, ⟨same.functions, id⟩, rfl⟩

theorem SameCode.of_since {start g h : Generator} {φ : Phase} (states : (Comparison.since start).Related φ g h) :
    g.SameCode h :=
  ⟨states.image.1, states.functions.1⟩

theorem Grown.of_since {start g h : Generator} {φ : Phase} (states : (Comparison.since start).Related φ g h) :
    start.Grown start.image.size g :=
  ⟨states.image.2, states.functions.2⟩

end Generator

theorem OnBase.of_since {start g h : Generator} {φ : Phase} (states : (Comparison.since start).Related φ g h) :
    OnBase start.frames g.frames := by
  cases φ with
  | outside => exact .inl states.frames
  | inside V =>
    obtain ⟨fr, -, rest, -, frames, -, below, -⟩ := states.frames
    exact .inr ⟨fr, frames.trans (congrArg _ below)⟩

/-- A step that goes together with itself ends alike from states with the same code. If it is refused,
    then for another reason than that no frame is open. -/
theorem Comparison.Paired.ends_alike {x : Gen Unit} {g h : Generator}
    (runs : (Comparison.since g).Steps 0 .outside .outside x x) (same : g.SameCode h) :
    EndsAlike x g h (fun _ g' h' => g.Grown g.image.size g' ∧ g'.SameCode h' ∧ g'.frames = g.frames)
      fun e g' h' => g.Grown g.image.size g' ∧ g'.SameCode h' ∧ OnBase g.frames g'.frames ∧ e ≠ .noActiveScope := by
  rcases (runs same.since (Nat.zero_le _)).together id with
    ⟨_, _, g', h', left, right, states, -⟩ | ⟨e, e', g', h', left, right, errors, _, states⟩
  · exact .inl ⟨(), g', h', left, right, .of_since states, .of_since states, states.frames⟩
  · obtain rfl := errors.eq trivial id
    have native := errors.native
    refine .inr ⟨e, g', h', left, right, .of_since states, .of_since states, .of_since states, ?_⟩
    rintro rfl
    exact native

end DotCom
