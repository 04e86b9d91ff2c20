/-
  DotCom.Proofs.Scopes — frames through any opening, closing and declaring. Sizes are any words, and
  declarations that are refused come between those that are not.

  A stack keeps for each frame the declarations that have succeeded in it, the latest first, with the
  distance below `bp` that each was told.

  - `Frame.Declared`: a frame is what a list of declarations has made of an empty one.
    `Declared.tiled`: its slots lie one below the other and fill what is reserved.
  - `Stack.Made.step`, `Stack.Made.run`: the frames of a stack are always made by the declarations kept for them.
  - `Balanced`: requests that close what they open, and nothing else. `Balanced.tail_run`: they do
    not touch the frames below the innermost one.
  - `Stack.slots_tile`: slots never overlap and never leave their frame, and closing a frame brings
    back the one that was open before.
-/

import DotCom.Proofs.Slots
import Mathlib.Data.List.Forall2

namespace DotCom

/-- A declaration that has succeeded, and the distance below `bp` it was told. -/
structure Declaration where
  name : String
  size : UInt16
  offset : UInt16
  deriving DecidableEq, Repr

/-- An address inside the slot of a declaration. -/
def Declaration.Covers (d : Declaration) (bp a : Int) : Prop :=
  bp - d.offset.toNat ≤ a ∧ a < bp - d.offset.toNat + d.size.toNat

/-- The bytes that declarations ask for. -/
def declaredBytes : List Declaration → Nat
  | [] => 0
  | d :: ds => d.size.toNat + declaredBytes ds

namespace Frame

/-- What declarations, the latest first, have made of an empty frame. -/
inductive Declared : Frame → List Declaration → Prop
  | start (function : String) : Declared { function } []
  | declare {frame frame' : Frame} {history : List Declaration} {name : String} {size offset : UInt16}
      (before : Declared frame history) (declared : Frame.declare name size frame = .ok offset frame') :
      Declared frame' (⟨name, size, offset⟩ :: history)

/-- Slots lie one below the other and fill the frame. Each name has the displacement that its
    declaration was told, and the next declaration is refused for a name that has a slot, or else for want of room. -/
structure Tiled (frame : Frame) (history : List Declaration) : Prop where
  total : frame.allocated.toNat = declaredBytes history
  small : frame.allocated.toNat ≤ 32767
  frameSize : frame.frameSize.toInt = frame.allocated.toNat
  apart : history.Pairwise fun d e => ∀ bp a, d.Covers bp a → ¬ e.Covers bp a
  fill : ∀ bp a : Int, (bp - frame.allocated.toNat ≤ a ∧ a < bp) ↔ ∃ d ∈ history, d.Covers bp a
  displaced : ∀ d ∈ history, ∃ disp, frame.displacement d.name = .ok disp ∧ disp.toInt = -(d.offset.toNat : Int)
  undefined : ∀ {name}, name ∉ history.map Declaration.name →
    frame.displacement name = .error (.rejected (.undefinedIdentifier name frame.function))
  taken : ∀ {name} size, name ∈ history.map Declaration.name →
    Frame.declare name size frame = .error (.rejected (.redeclaration name frame.function)) frame
  full : ∀ {name} {size : UInt16}, name ∉ history.map Declaration.name →
    32767 < frame.allocated.toNat + size.toNat →
    Frame.declare name size frame = .error (.rejected (.frameTooLarge frame.function)) frame
  fits : ∀ {name} {size : UInt16}, name ∉ history.map Declaration.name →
    frame.allocated.toNat + size.toNat ≤ 32767 →
    ∃ offset frame', Frame.declare name size frame = .ok offset frame'

/-! ## Slots one below the other -/

/-- Each slot starts where those declared before it end. -/
def Stacked : List Declaration → Prop
  | [] => True
  | d :: ds => d.offset.toNat = declaredBytes ds + d.size.toNat ∧ Stacked ds

variable {frame frame' : Frame} {history : List Declaration} {d : Declaration} {name : String} {size offset : UInt16}

theorem Stacked.offset_le (h : Stacked history) (hd : d ∈ history) : d.offset.toNat ≤ declaredBytes history := by
  induction history with
  | nil => cases hd
  | cons e ds ih =>
    rw [declaredBytes]
    rcases List.mem_cons.1 hd with rfl | hd
    · have := h.1
      omega
    · have := ih h.2 hd
      omega

theorem Stacked.covers_iff (h : Stacked history) (bp a : Int) :
    (∃ d ∈ history, d.Covers bp a) ↔ bp - declaredBytes history ≤ a ∧ a < bp := by
  induction history with
  | nil =>
    refine iff_of_false ?_ ?_
    · rintro ⟨d, hd, -⟩
      exact absurd hd List.not_mem_nil
    · show ¬ (bp - (0 : Nat) ≤ a ∧ a < bp)
      omega
  | cons d ds ih =>
    have lowest := h.1
    rw [List.exists_mem_cons_iff, ih h.2, declaredBytes, Declaration.Covers]
    omega

theorem Stacked.apart (h : Stacked history) : history.Pairwise fun d e => ∀ bp a, d.Covers bp a → ¬ e.Covers bp a := by
  induction history with
  | nil => exact List.Pairwise.nil
  | cons d ds ih =>
    refine List.Pairwise.cons (fun e he bp a hd hc => ?_) (ih h.2)
    -- The slot of `d` lies below all the others.
    have above := (h.2.covers_iff bp a).1 ⟨e, he, hc⟩
    have lowest := h.1
    unfold Declaration.Covers at hd
    omega

/-! ## Declarations -/

/-- A declaration that succeeds. -/
theorem declare_eq_ok (h : Frame.declare name size frame = .ok offset frame') :
    ¬ frame.contains name ∧ frame'.slots = (name, offset) :: frame.slots ∧ offset = frame'.allocated ∧
      frame'.allocated.toNat = frame.allocated.toNat + size.toNat ∧ frame'.allocated.toNat ≤ maxAllocated := by
  by_cases hc : frame.contains name
  · rw [declare_of_contains hc] at h
    cases h
  · rw [declare_of_not_contains hc] at h
    refine ⟨hc, ?_, ?_, allocated_of_reserve h⟩
    all_goals
      unfold reserve at h
      split at h
      · cases h
        rfl
      · cases h

/-- A declaration that is refused leaves the frame as it is. -/
theorem declare_eq_error {e : Failure} (h : Frame.declare name size frame = .error e frame') : frame' = frame := by
  by_cases hc : frame.contains name
  · rw [declare_of_contains hc] at h
    cases h
    rfl
  · rw [declare_of_not_contains hc] at h
    unfold reserve at h
    split at h
    · cases h
    · cases h
      rfl

/-- What declarations, the latest first, leave in a frame. -/
structure Records (frame : Frame) (history : List Declaration) : Prop where
  total : frame.allocated.toNat = declaredBytes history
  small : frame.allocated.toNat ≤ maxAllocated
  stacked : Stacked history
  slots : frame.slots = history.map fun d => (d.name, d.offset)
  distinct : (history.map Declaration.name).Nodup

theorem Records.contains_iff (h : frame.Records history) :
    frame.contains name ↔ name ∈ history.map Declaration.name := by
  rw [contains, offset?, List.lookup_isSome_iff, h.slots, List.mem_map]
  constructor
  · rintro ⟨p, hp, e⟩
    obtain ⟨d, hd, rfl⟩ := List.mem_map.1 hp
    exact ⟨d, hd, (eq_of_beq e).symm⟩
  · rintro ⟨d, hd, rfl⟩
    exact ⟨_, List.mem_map_of_mem hd, beq_self_eq_true _⟩

theorem Declared.records (h : frame.Declared history) : frame.Records history := by
  induction h with
  | start function => exact ⟨rfl, Nat.zero_le _, trivial, rfl, List.nodup_nil⟩
  | declare before declared ih =>
    obtain ⟨new, slots, rfl, grown, small⟩ := declare_eq_ok declared
    refine ⟨?_, small, ⟨?_, ih.stacked⟩, ?_, ?_⟩
    · rw [grown, ih.total, declaredBytes, Nat.add_comm]
    · rw [grown, ih.total]
    · rw [slots, ih.slots, List.map_cons]
    · rw [List.map_cons]
      exact List.nodup_cons.2 ⟨fun hn => new (ih.contains_iff.2 hn), ih.distinct⟩

theorem lookup_of_nodup (distinct : (history.map Declaration.name).Nodup) (hd : d ∈ history) :
    (history.map fun d => (d.name, d.offset)).lookup d.name = some d.offset := by
  induction history with
  | nil => cases hd
  | cons e ds ih =>
    rw [List.map_cons, List.nodup_cons] at distinct
    rw [List.map_cons, List.lookup_cons]
    rcases List.mem_cons.1 hd with rfl | hd
    · rw [beq_self_eq_true]
    · have ne : (d.name == e.name) = false :=
        beq_eq_false_iff_ne.2 fun same => distinct.1 (same ▸ List.mem_map_of_mem hd)
      rw [ne]
      exact ih distinct.2 hd

theorem Records.offset?_eq (h : frame.Records history) (hd : d ∈ history) : frame.offset? d.name = some d.offset := by
  rw [offset?, h.slots]
  exact lookup_of_nodup h.distinct hd

/-- The slots of a frame made by declarations. -/
theorem Declared.tiled (declared : frame.Declared history) : frame.Tiled history := by
  have h := declared.records
  have undeclared {name : String} (new : name ∉ history.map Declaration.name) : ¬ frame.contains name :=
    fun hc => new (h.contains_iff.1 hc)
  refine ⟨h.total, h.small, ?_, h.stacked.apart, fun bp a => ?_, fun d hd => ?_, fun new => ?_, fun size taken => ?_,
    fun {name size} new full => ?_, fun {name size} new room => ?_⟩
  · rw [frameSize, if_pos h.small]
    exact Word.toInt_toInt16_of_lt (Nat.lt_succ_of_le h.small)
  · rw [h.stacked.covers_iff, h.total]
  · have small : d.offset.toNat ≤ maxAllocated := Nat.le_trans (h.stacked.offset_le hd) (h.total ▸ h.small)
    exact ⟨_, displacement_of_offset (h.offset?_eq hd) small, toInt_neg_offset small⟩
  · exact displacement_error (undeclared new)
  · exact declare_of_contains (h.contains_iff.2 taken) size
  · rw [declare_of_not_contains (undeclared new)]
    exact if_neg (Nat.not_le.2 full)
  · rw [declare_of_not_contains (undeclared new)]
    exact ⟨_, _, if_pos room⟩

end Frame

/-! ## Stacks of frames -/

namespace Frames

/-- What can be asked of the frames. A frame that is opened may have declarations already. -/
inductive Request where
  | push (frame : Frame) (history : List Declaration) (declared : frame.Declared history)
  | pop
  | declare (name : String) (size : UInt16)

structure Stack where
  frames : Frames := []
  /-- The declarations of each frame, the latest first. -/
  histories : List (List Declaration) := []

namespace Stack

/-- Makes a request. -/
def step (s : Stack) : Request → Stack
  | .push frame history _ =>
    match Frames.push frame s.frames with
    | .ok _ frames | .error _ frames => ⟨frames, history :: s.histories⟩
  | .pop =>
    match Frames.pop s.frames with
    | .ok _ frames | .error _ frames => ⟨frames, s.histories.tail⟩
  | .declare name size =>
    match Frames.onTop (Frame.declare name size) s.frames with
    | .ok offset frames => ⟨frames, s.histories.modifyHead (⟨name, size, offset⟩ :: ·)⟩
    | .error _ frames => ⟨frames, s.histories⟩

/-- Makes requests in turn. -/
def run (s : Stack) : List Request → Stack
  | [] => s
  | r :: rs => (s.step r).run rs

theorem run_append (s : Stack) (rs rs' : List Request) : s.run (rs ++ rs') = (s.run rs).run rs' := by
  induction rs generalizing s with
  | nil => rfl
  | cons r rs ih => exact ih (s.step r)

/-- Each frame is made by the declarations kept for it. -/
def Made (s : Stack) : Prop := List.Forall₂ Frame.Declared s.frames s.histories

variable {s : Stack}

theorem step_pop (s : Stack) : s.step .pop = ⟨s.frames.tail, s.histories.tail⟩ := rfl

/-- What one request keeps. -/
theorem Made.step (h : s.Made) (r : Request) : (s.step r).Made := by
  obtain ⟨frames, histories⟩ := s
  cases r with
  | push frame history declared => exact List.Forall₂.cons declared h
  | pop =>
    cases h with
    | nil => exact List.Forall₂.nil
    | cons _ rest => exact rest
  | declare name size =>
    cases h with
    | nil => exact List.Forall₂.nil
    | @cons frame history _ _ declared rest =>
      simp only [Stack.step, onTop]
      cases hd : Frame.declare name size frame with
      | ok offset frame' => exact List.Forall₂.cons (declared.declare hd) rest
      | error e frame' =>
        obtain rfl := Frame.declare_eq_error hd
        exact List.Forall₂.cons declared rest

/-- What any number of requests keep. -/
theorem Made.run (h : s.Made) (rs : List Request) : (s.run rs).Made := by
  induction rs generalizing s with
  | nil => exact h
  | cons r rs ih => exact ih (h.step r)

theorem tail_step_declare (s : Stack) (name : String) (size : UInt16) :
    (s.step (.declare name size)).frames.tail = s.frames.tail ∧
      (s.step (.declare name size)).histories.tail = s.histories.tail := by
  obtain ⟨frames, histories⟩ := s
  cases frames with
  | nil => exact ⟨rfl, rfl⟩
  | cons frame rest =>
    simp only [Stack.step, onTop]
    cases Frame.declare name size frame with
    | ok offset frame' => exact ⟨rfl, by cases histories <;> rfl⟩
    | error e frame' => exact ⟨rfl, rfl⟩

end Stack

/-- Requests that close every frame they open, and no other. -/
inductive Balanced : List Request → Prop
  | nil : Balanced []
  | declare (name : String) (size : UInt16) {rs : List Request} (rest : Balanced rs) :
      Balanced (.declare name size :: rs)
  | nest {frame : Frame} {history : List Declaration} (declared : frame.Declared history) {inner rs : List Request}
      (inside : Balanced inner) (rest : Balanced rs) : Balanced (.push frame history declared :: (inner ++ .pop :: rs))

namespace Balanced

variable {rs inner : List Request}

/-- Frames below the innermost one stay as they are. -/
theorem tail_run (h : Balanced rs) (s : Stack) :
    (s.run rs).frames.tail = s.frames.tail ∧ (s.run rs).histories.tail = s.histories.tail := by
  induction h generalizing s with
  | nil => exact ⟨rfl, rfl⟩
  | declare name size _ ih =>
    have step := s.tail_step_declare name size
    have rest := ih (s.step (.declare name size))
    exact ⟨rest.1.trans step.1, rest.2.trans step.2⟩
  | nest declared _ _ ihInner ihRest =>
    obtain ⟨frames, histories⟩ := ihInner (s.step (.push _ _ declared))
    rw [Stack.run, Stack.run_append, Stack.run, Stack.step_pop, frames, histories]
    exact ihRest s

/-- Closing a frame brings back what was open before. -/
theorem run_closed (h : Balanced inner) {frame : Frame} {history : List Declaration} (declared : frame.Declared history)
    (s : Stack) : s.run (.push frame history declared :: (inner ++ [.pop])) = s := by
  obtain ⟨frames, histories⟩ := h.tail_run (s.step (.push frame history declared))
  rw [Stack.run, Stack.run_append, Stack.run, Stack.run, Stack.step_pop, frames, histories]
  rfl

end Balanced

namespace Stack

/-- Whatever is opened, closed and declared, the slots of every frame are those of the declarations that
    succeeded in it, one below the other. Frames below the innermost one stay as they are, and closing a
    frame brings back the one that was open before. -/
theorem slots_tile {s : Stack} (made : s.Made) (requests : List Request) :
    List.Forall₂ Frame.Tiled (s.run requests).frames (s.run requests).histories ∧
      (∀ {rs}, Balanced rs → ((s.run requests).run rs).frames.tail = (s.run requests).frames.tail) ∧
      ∀ {inner frame history}, Balanced inner → ∀ declared : Frame.Declared frame history,
        s.run (requests ++ .push frame history declared :: (inner ++ [.pop])) = s.run requests := by
  refine ⟨(made.run requests).imp fun _ _ declared => declared.tiled, fun balanced => (balanced.tail_run _).1,
    fun balanced declared => ?_⟩
  rw [run_append]
  exact balanced.run_closed declared _

/-- A frame of 32767 bytes: a name is declared again, one takes no bytes, one has no room, and another frame is opened
    in between. -/
theorem slots_tile_full_frame :
    let inner : List Request := [.declare "a" 7, .declare "a" 1]
    let requests : List Request :=
      [.push { function := "f" } [] (.start "f"), .declare "a" 2, .declare "a" 4, .declare "b" 0] ++
        .push { function := "g" } [] (.start "g") :: (inner ++ [.pop]) ++ [.declare "c" 32765, .declare "d" 1]
    ∃ s, s = Stack.run {} requests ∧ s.frames = [⟨"f", 32767, [("c", 32767), ("b", 2), ("a", 2)]⟩] ∧
      s.histories = [[⟨"c", 32765, 32767⟩, ⟨"b", 0, 2⟩, ⟨"a", 2, 2⟩]] ∧
      List.Forall₂ Frame.Tiled s.frames s.histories ∧
      s.run (.push { function := "g" } [] (.start "g") :: (inner ++ [.pop])) = s := by
  intro inner requests
  have made : Made {} := List.Forall₂.nil
  have balanced : Balanced inner := .declare _ _ (.declare _ _ .nil)
  obtain ⟨tiled, -, closed⟩ := slots_tile made requests
  refine ⟨_, rfl, by decide +kernel, by decide +kernel, tiled, ?_⟩
  rw [← run_append]
  exact closed balanced (.start "g")

end Stack

end Frames

end DotCom
