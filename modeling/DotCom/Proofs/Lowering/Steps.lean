/-
  DotCom.Proofs.Lowering.Steps — what a step of lowering does, exactly. `Gives` says when a step
  succeeds and with what, and that it is refused, and does not crash, otherwise; `Emits` is the
  case of a step that appends bytes. Events are left open.

  - `Gives.bind`, `Emits.seq`: one step after another.
-/

import DotCom.Proofs.Layout

namespace DotCom

namespace Generator

/-- The state with more bytes, and with other frames. -/
def extend (s : Generator) (bytes : List UInt8) (frames : Frames) : Generator :=
  { s with image := { s.image with bytes := s.image.bytes ++ bytes }, frames }

/-- Whether `n` more bytes have room. -/
def Fits (s : Generator) (n : Nat) : Prop := s.image.size + n ≤ s.image.capacity

/-- The functions that can be called. -/
def known (s : Generator) : List String := s.functions.entries.map Prod.fst

def link (s : Generator) : Link := ⟨s.image.loadBase, s.functions⟩

@[simp] theorem extend_frames (s : Generator) (bs : List UInt8) (fr : Frames) : (s.extend bs fr).frames = fr := rfl
@[simp] theorem extend_known (s : Generator) (bs : List UInt8) (fr : Frames) : (s.extend bs fr).known = s.known := rfl
@[simp] theorem extend_link (s : Generator) (bs : List UInt8) (fr : Frames) : (s.extend bs fr).link = s.link := rfl
@[simp] theorem extend_functions (s : Generator) (bs : List UInt8) (fr : Frames) :
    (s.extend bs fr).functions = s.functions := rfl
@[simp] theorem extend_capacity (s : Generator) (bs : List UInt8) (fr : Frames) :
    (s.extend bs fr).image.capacity = s.image.capacity := rfl
@[simp] theorem extend_loadBase (s : Generator) (bs : List UInt8) (fr : Frames) :
    (s.extend bs fr).image.loadBase = s.image.loadBase := rfl

@[simp] theorem size_extend (s : Generator) (bs : List UInt8) (fr : Frames) :
    (s.extend bs fr).image.size = s.image.size + bs.length := by
  simp only [extend, Image.size, ← Array.length_toList, Array.toList_appendList, List.length_append]

theorem fits_extend (s : Generator) {bs : List UInt8} {fr : Frames} (h : s.Fits bs.length) :
    (s.extend bs fr).Fits 0 := by
  simpa [Fits] using h

@[simp] theorem extend_extend (s : Generator) (bs cs : List UInt8) (fr gr : Frames) :
    (s.extend bs fr).extend cs gr = s.extend (bs ++ cs) gr := by
  have h : s.image.bytes ++ bs ++ cs = s.image.bytes ++ (bs ++ cs) := Array.ext' (by simp)
  simp only [extend, h]

@[simp] theorem extend_nil (s : Generator) : s.extend [] s.frames = s := by
  simp only [extend, Array.appendList_nil]

end Generator

variable {α β : Type}

/-- A step gives `a` and ends in `t` if `ok` holds, and is refused if not. -/
def Gives (x : Gen α) (s : Generator) (ok : Prop) (a : α) (t : Generator) : Prop :=
  ∀ events,
    (ok → ∃ events', x { s with events } = .ok a { t with events := events' }) ∧
      (¬ ok → ∃ e g, x { s with events } = .error (.rejected e) g)

namespace Gives

variable {x : Gen α} {f : α → Gen β} {s t u : Generator} {P Q : Prop} {a : α} {b : β}

theorem bind (hx : Gives x s P a t) (hf : P → Gives (f a) t Q b u) : Gives (x >>= f) s (P ∧ Q) b u := by
  intro events
  have hb : ∀ g, (x >>= f) g = EStateM.bind x f g := fun _ => rfl
  by_cases hP : P
  · obtain ⟨e1, h1⟩ := (hx events).1 hP
    have h2 := hf hP e1
    rw [hb, EStateM.bind, h1]
    exact ⟨fun h => h2.1 h.2, fun h => h2.2 fun hQ => h ⟨hP, hQ⟩⟩
  · obtain ⟨e, g, h1⟩ := (hx events).2 hP
    rw [hb, EStateM.bind, h1]
    exact ⟨fun h => absurd h.1 hP, fun _ => ⟨e, g, rfl⟩⟩

theorem iff (hx : Gives x s P a t) (h : P ↔ Q) : Gives x s Q a t := fun events =>
  ⟨fun hQ => (hx events).1 (h.2 hQ), fun hQ => (hx events).2 fun hP => hQ (h.1 hP)⟩

/-- Where a step ends matters only if it succeeds. -/
theorem ends (hx : Gives x s P a t) (h : P → t = u) : Gives x s P a u := fun events =>
  ⟨fun hP => h hP ▸ (hx events).1 hP, (hx events).2⟩

/-- After a step that always succeeds. -/
theorem after (hx : Gives x s True a t) (hf : Gives (f a) t Q b u) : Gives (x >>= f) s Q b u :=
  (hx.bind fun _ => hf).iff (by rw [true_and])

theorem pure (s : Generator) (a : α) : Gives (pure a) s True a s := fun events =>
  ⟨fun _ => ⟨events, rfl⟩, fun h => absurd trivial h⟩

theorem reject (s t : Generator) (a : α) (e : CompileError) : Gives (Gen.reject e) s False a t := fun events =>
  ⟨fun h => h.elim, fun _ => ⟨e, { s with events }, rfl⟩⟩

theorem report (s : Generator) (event : Event) : Gives (Gen.report event) s True () s := fun events =>
  ⟨fun _ => ⟨events.push event, rfl⟩, fun h => absurd trivial h⟩

theorem frame {fr : Frame} {rest : Frames} (h : s.frames = fr :: rest) : Gives Gen.frame s True fr s := by
  intro events
  refine ⟨fun _ => ⟨events, ?_⟩, fun h => absurd trivial h⟩
  obtain ⟨image, functions, frames, old⟩ := s
  subst h
  rfl

theorem position (s : Generator) : Gives Gen.position s True s.image.size s := fun events =>
  ⟨fun _ => ⟨events, rfl⟩, fun h => absurd trivial h⟩

theorem address (s : Generator) : Gives Gen.address s True (s.link.addr s.image.size) s := fun events =>
  ⟨fun _ => ⟨events, rfl⟩, fun h => absurd trivial h⟩

/-- A step that looks at the state, but not at its events. -/
theorem read {f : Generator → Gen β} (hf : ∀ events, Gives (f { s with events }) s P b t) : Gives (get >>= f) s P b t :=
  fun events => hf events events

/-- A look-up that succeeds. -/
theorem attempt {r : Except Failure α} (h : r = .ok a) : Gives (Gen.attempt r) s True a s := by
  subst h
  exact Gives.pure s a

/-- A look-up that is refused. -/
theorem attempt_error {r : Except Failure α} {e : CompileError} (h : r = .error (.rejected e)) :
    Gives (Gen.attempt r) s False a t := by
  subst h
  exact reject s t a e

end Gives

/-- A step appends `bytes` and leaves `frames` if `ok` holds and there is room, and is refused if not. -/
def Emits (x : Gen α) (s : Generator) (ok : Prop) (a : α) (bytes : List UInt8) (frames : Frames) : Prop :=
  Gives x s (ok ∧ s.Fits bytes.length) a (s.extend bytes frames)

namespace Emits

variable {x : Gen α} {f : α → Gen β} {s : Generator} {P Q : Prop} {a : α} {b : β} {bs cs : List UInt8} {fr gr : Frames}

theorem iff (hx : Emits x s P a bs fr) (h : P ↔ Q) : Emits x s Q a bs fr :=
  Gives.iff hx (and_congr_left' h)

theorem of (hx : Emits x s P a bs fr) (hP : P ↔ Q) (hb : bs = cs) : Emits x s Q a cs fr := hb ▸ hx.iff hP

theorem gives {a' : α} (hx : Emits x s P a bs fr) (ha : a = a') : Emits x s P a' bs fr := ha ▸ hx

/-- One step after another. The second is looked at only where the first succeeds. -/
theorem seq (hx : Emits x s P a bs fr)
    (hf : P → s.Fits bs.length → Emits (f a) (s.extend bs fr) Q b cs gr) :
    Emits (x >>= f) s (P ∧ Q) b (bs ++ cs) gr := by
  have h := Gives.bind hx fun h => hf h.1 h.2
  rw [Generator.extend_extend] at h
  refine h.iff ?_
  simp only [Generator.Fits, Generator.size_extend, Generator.extend_capacity, List.length_append]
  constructor
  · rintro ⟨⟨hP, _⟩, hQ, h2⟩
    exact ⟨⟨hP, hQ⟩, by omega⟩
  · rintro ⟨⟨hP, hQ⟩, h⟩
    exact ⟨⟨hP, by omega⟩, hQ, by omega⟩

/-- A step that puts other bytes in the place of those appended last. -/
theorem fix (hx : Emits x s P a bs fr)
    (hf : P → s.Fits bs.length → Gives (f a) (s.extend bs fr) Q b (s.extend cs fr)) (hl : cs.length = bs.length) :
    Emits (x >>= f) s (P ∧ Q) b cs fr := by
  refine (Gives.bind hx fun h => hf h.1 h.2).iff ?_
  rw [hl]
  exact and_right_comm

/-- After a step that always succeeds and emits nothing. -/
theorem after (hx : Gives x s True a s) (hf : Emits (f a) s Q b cs gr) : Emits (x >>= f) s Q b cs gr :=
  Gives.after hx hf

/-- After a step that is always refused. -/
theorem refused {t : Generator} (hx : Gives x s False a t) : Emits (x >>= f) s False b cs gr :=
  (Gives.bind (Q := True) hx fun h => h.elim).iff (by simp)

theorem pure (a : α) (h : s.Fits 0) : Emits (pure a) s True a [] s.frames := by
  rw [Emits, Generator.extend_nil]
  exact (Gives.pure s a).iff (by simp [h])

theorem reject (e : CompileError) : Emits (Gen.reject e) s False a bs fr :=
  Gives.iff (fun events => Gives.reject s _ a e events) (by rw [false_and])

theorem bytes (s : Generator) (chunk : List UInt8) :
    Emits (Gen.onImage (Image.emit chunk)) s True () chunk s.frames := by
  intro events
  simp only [true_and, Generator.Fits, Gen.onImage, Image.emit]
  by_cases h : s.image.size + chunk.length ≤ s.image.capacity
  · simp only [h, if_true, not_true, false_implies, and_true]
    exact fun _ => ⟨events, rfl⟩
  · simp only [h, if_false, not_false_iff, false_implies, true_and]
    exact fun _ => ⟨_, _, rfl⟩

theorem instr (s : Generator) (i : Instr) : Emits (Gen.emit i) s True () i.encode s.frames :=
  bytes s i.encode

theorem instrs (is : List Instr) (h : s.Fits 0) : Emits (Gen.emitAll is) s True () (encodeAll is) s.frames := by
  induction is generalizing s with
  | nil => exact pure () h
  | cons i is ih => exact ((instr s i).seq fun _ hi => ih (s.fits_extend hi)).iff (by rw [and_self])

end Emits

end DotCom
