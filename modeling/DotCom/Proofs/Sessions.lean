/-
  DotCom.Proofs.Sessions — a generator that is used for many programs and functions, one after another.
  A call that fails leaves what it has done: part of a function, its entry in the table and its frame.

  - `Generator.Extends`: no byte and no address that was there has changed.
  - `Call.effect`: what any call does to any state.
  - `session_extends`: after any calls, the next one only adds to the image, within its capacity. It
    leaves at most one frame behind, and only if it fails. What a function compiles to does not depend
    on such frames.
-/

import DotCom.Proofs.Lowering.Growth

namespace DotCom

/-- What can be asked of a generator. -/
inductive Call where
  | program (p : Program) (entryPoint : String)
  | function (f : Function)
  deriving Repr

def Call.lower : Call → Gen Unit
  | program p entryPoint => p.lower entryPoint
  | function f => f.lower

namespace Generator

/-- The state after a call, whether it has succeeded or failed. -/
def call (g : Generator) (c : Call) : Generator :=
  match c.lower g with
  | .ok _ g' | .error _ g' => g'

/-- The state after calls in turn. -/
def calls (g : Generator) : List Call → Generator
  | [] => g
  | c :: cs => (g.call c).calls cs

/-- More bytes behind those of `g`, and more functions beside those of `g`. -/
structure Extends (g' g : Generator) : Prop where
  bytes : g.image.bytes.toList <+: g'.image.bytes.toList
  functions : ∀ {name address}, g.functions.address? name = some address → g'.functions.address? name = some address

theorem Grown.extends {g g' : Generator} (h : g.Grown g.image.size g') : g'.Extends g :=
  ⟨h.image.bytes_prefix, h.functions⟩

theorem call_eq {g g' : Generator} {c : Call}
    (h : c.lower g = .ok () g' ∨ ∃ e, c.lower g = .error (.rejected e) g') : g.call c = g' := by
  rcases h with h | ⟨e, h⟩
  · rw [call, h]
  · rw [call, h]

end Generator

/-! ## One call -/

/-- Runs of one call from states with the same code, seen from the first of them. -/
theorem Call.ends_alike (c : Call) {g h : Generator} (same : g.SameCode h) :
    EndsAlike c.lower g h
      (fun _ g' h' => g.Grown g.image.size g' ∧ g'.SameCode h' ∧ g'.frames = g.frames)
      fun e g' h' => g.Grown g.image.size g' ∧ g'.SameCode h' ∧ OnBase g.frames g'.frames ∧ e ≠ .noActiveScope := by
  refine Comparison.Paired.ends_alike ?_ same
  cases c with
  | program p entryPoint => exact Program.paired_lower (.refl (fun _ => rfl) (.inl trivial)) rfl fun _ => rfl
  | function f => exact Function.paired_lower ⟨.refl (fun _ => rfl) f, fun _ => rfl, .inl trivial⟩

/-- A call from any state: it succeeds and closes the frame it has opened, or it is refused. -/
theorem Call.effect (c : Call) (g : Generator) :
    g.Grown g.image.size (g.call c) ∧
      (c.lower g = .ok () (g.call c) ∧ (g.call c).frames = g.frames ∨
        ∃ e, c.lower g = .error (.rejected e) (g.call c) ∧ OnBase g.frames (g.call c).frames ∧ e ≠ .noActiveScope) := by
  rcases c.ends_alike (g := g) ⟨rfl, rfl⟩ with
    ⟨_, g', -, run, -, grown, -, frames⟩ | ⟨e, g', -, run, -, grown, -, frames, he⟩
  · rw [Generator.call_eq (.inl run)]
    exact ⟨grown, .inl ⟨run, frames⟩⟩
  · rw [Generator.call_eq (.inr ⟨e, run⟩)]
    exact ⟨grown, .inr ⟨e, run, frames, he⟩⟩

/-! ## Any number of calls -/

/-- The images of a session stay within the capacity it was opened with. -/
theorem Generator.within_calls {capacity : Nat} (cs : List Call) {g : Generator} (hc : g.image.capacity = capacity)
    (hs : g.image.size ≤ capacity) : (g.calls cs).image.capacity = capacity ∧ (g.calls cs).image.size ≤ capacity := by
  induction cs generalizing g with
  | nil => exact ⟨hc, hs⟩
  | cons c cs ih =>
    have grown := (c.effect g).1.image
    exact ih (grown.capacity.trans hc) (hc ▸ grown.room (hc ▸ hs))

theorem Generator.calls_concat (g : Generator) (cs : List Call) (c : Call) :
    g.calls (cs ++ [c]) = (g.calls cs).call c := by
  induction cs generalizing g with
  | nil => rfl
  | cons d cs ih => exact ih (g.call d)

theorem Generator.of_create {options : Options} {g : Generator} (h : Generator.create options = .ok g) :
    g = { image := ⟨#[], options.loadBase, options.capacity⟩ } ∧
      options.loadBase.toNat + options.capacity ≤ segmentSize := by
  by_cases layout : options.loadBase.toNat + options.capacity ≤ segmentSize
  · rw [Program.create_eq_ok layout, Except.ok.injEq] at h
    exact ⟨h.symm, layout⟩
  · obtain ⟨e, he⟩ := Program.create_eq_error layout
    rw [he] at h
    cases h

/-- After any calls the next one only adds to the image and to the functions, and it leaves at most one
    frame behind, if it fails. What a function compiles to does not depend on such frames. -/
theorem session_extends {options : Options} {start : Generator} (created : Generator.create options = .ok start)
    (before : List Call) (next : Call) :
    (start.calls (before ++ [next])).Extends (start.calls before) ∧
      (start.calls (before ++ [next])).image.size ≤ options.capacity ∧
      (next.lower (start.calls before) = .ok () (start.calls (before ++ [next])) ∧
          (start.calls (before ++ [next])).frames = (start.calls before).frames ∨
        ∃ e, next.lower (start.calls before) = .error (.rejected e) (start.calls (before ++ [next])) ∧
          OnBase (start.calls before).frames (start.calls (before ++ [next])).frames) ∧
      ∀ (f : Function) (h : Generator), (start.calls before).SameCode h →
        EndsAlike f.lower (start.calls before) h (fun _ g' h' => g'.SameCode h') fun _ g' h' => g'.SameCode h' := by
  obtain ⟨rfl, -⟩ := Generator.of_create created
  have within := Generator.within_calls (before ++ [next])
    (g := { image := ⟨#[], options.loadBase, options.capacity⟩ }) rfl
    (Nat.zero_le _)
  have effect := next.effect (Generator.calls { image := ⟨#[], options.loadBase, options.capacity⟩ } before)
  rw [← Generator.calls_concat] at effect
  refine ⟨effect.1.extends, within.2, ?_, fun f h same => ?_⟩
  · exact effect.2.imp id fun ⟨e, run, frames, _⟩ => ⟨e, run, frames⟩
  · exact ((Call.function f).ends_alike same).mono (fun _ _ _ hq => hq.2.1) fun _ _ _ he => he.2.1

/-- A function that fails in its body leaves its entry and its frame. The next function calls it all the
    same, and compiles to what it would without that frame. -/
theorem session_extends_after_failure :
    let failing : Function := ⟨"f", ⟨.int, 0⟩, [], [.expr (.ident "x")]⟩
    let caller : Function := ⟨"g", ⟨.int, 0⟩, [], [.expr (.call "f" [])]⟩
    ∃ start, Generator.create {} = .ok start ∧ (start.calls [.function failing]).frames.length = 1 ∧
      (start.calls ([.function failing] ++ [.function caller])).frames.length = 1 ∧
      (start.calls ([.function failing] ++ [.function caller])).Extends (start.calls [.function failing]) ∧
      EndsAlike caller.lower (start.calls [.function failing]) { start.calls [.function failing] with frames := [] }
        (fun _ g' h' => g'.SameCode h') fun _ g' h' => g'.SameCode h' := by
  intro failing caller
  have created : Generator.create {} = .ok _ := Program.create_eq_ok (by decide)
  obtain ⟨extends', -, -, alike⟩ := session_extends created [.function failing] (.function caller)
  exact ⟨_, created, by decide +kernel, by decide +kernel, extends', alike caller _ ⟨rfl, rfl⟩⟩

end DotCom
