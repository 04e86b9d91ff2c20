/-
  DotCom.Proofs.Extension — a program with more functions behind it. Functions are lowered in order
  and call only what stands before them, so what comes later changes nothing about the code that is
  there, and whatever is wrong with a program is wrong with every extension of it. Only a missing
  entry point can be made up for.

  - `Program.code_followedBy`: the image of an extension starts with the image of the program.
  - `Program.extension_keeps`: what this says of images and errors.
-/

import DotCom.Proofs.Lowering.Pairs
import Mathlib.Data.List.Basic

namespace DotCom

/-! ## Functions behind functions -/

theorem functionsSize_append (fs gs : List Function) :
    functionsSize (fs ++ gs) = functionsSize fs + functionsSize gs := by
  induction fs with
  | nil => exact (Nat.zero_add _).symm
  | cons f fs ih => rw [List.cons_append, functionsSize, functionsSize, ih, Nat.add_assoc]

theorem functionsCode_append (link : Link) (pos : Nat) (fs gs : List Function) :
    functionsCode link pos (fs ++ gs) = functionsCode link pos fs ++
      functionsCode link (pos + functionsSize fs) gs := by
  induction fs generalizing pos with
  | nil => rfl
  | cons f fs ih =>
    rw [List.cons_append, functionsCode, functionsCode, ih, functionsSize, List.append_assoc, Nat.add_assoc]

theorem tableAfter_append (base : UInt16) (table : FunctionTable) (pos : Nat) (fs gs : List Function) :
    tableAfter base table pos (fs ++ gs) =
      tableAfter base (tableAfter base table pos fs) (pos + functionsSize fs) gs := by
  induction fs generalizing table pos with
  | nil => rfl
  | cons f fs ih => rw [List.cons_append, tableAfter, tableAfter, ih, functionsSize, Nat.add_assoc]

theorem functionsWellFormed_of_append {known : List String} {fs gs : List Function}
    (h : functionsWellFormed known (fs ++ gs)) :
    functionsWellFormed known fs := by
  induction fs generalizing known with
  | nil => trivial
  | cons f fs ih => exact ⟨h.1, ih h.2⟩

theorem Link.Agree.mono {known less : List String} {link link' : Link} (h : link.Agree known link')
    (hs : ∀ name ∈ less, name ∈ known) : link.Agree less link' :=
  ⟨h.base, fun name hn => h.entry name (hs name hn)⟩

theorem functionsCode_congr {all : List String} {link link' : Link} (h : link.Agree all link') (fs : List Function)
    {known : List String} (pos : Nat) (hw : functionsWellFormed known fs) (hk : ∀ name ∈ known, name ∈ all)
    (hf : ∀ name ∈ fs.map Function.name, name ∈ all) : functionsCode link pos fs = functionsCode link' pos fs := by
  induction fs generalizing known pos with
  | nil => rfl
  | cons f fs ih =>
    have known' : ∀ name ∈ f.name :: known, name ∈ all := List.forall_mem_cons.2 ⟨hf _ List.mem_cons_self, hk⟩
    rw [functionsCode, functionsCode, f.code_congr (h.mono known') pos hw.1.2,
      ih _ hw.2 known' fun name hn => hf name (List.mem_cons_of_mem _ hn)]

namespace Program

/-- The program with more functions behind its own. -/
def followedBy (p : Program) (more : List Function) : Program := ⟨p.functions ++ more⟩

variable {p : Program} {more : List Function} {entryPoint : String}

theorem size_le_followedBy (p : Program) (more : List Function) : p.size ≤ (p.followedBy more).size := by
  rw [size, size, followedBy, functionsSize_append]
  omega

theorem WellFormed.of_followedBy (h : (p.followedBy more).WellFormed entryPoint)
    (entry : entryPoint ∈ p.functions.map Function.name) : p.WellFormed entryPoint := by
  obtain ⟨functions, -⟩ := (wellFormed_iff _ _).1 h
  exact (wellFormed_iff _ _).2 ⟨functionsWellFormed_of_append functions, entry⟩

/-- The functions of a program keep their addresses. -/
theorem link_agree (base : UInt16) (hd : ((p.followedBy more).functions.map Function.name).Nodup) :
    (p.link base).Agree (p.functions.map Function.name) ((p.followedBy more).link base) := by
  refine ⟨rfl, fun name hn => ?_⟩
  rw [followedBy, List.map_append, List.nodup_append] at hd
  have apart : name ∉ more.map Function.name := fun hm => hd.2.2 name hn name hm rfl
  rw [Link.entry, Link.entry, link, link, followedBy, tableAfter_append, address?_tableAfter _ _ _ _ apart]

/-- The image of an extension starts with the image of the program. -/
theorem code_followedBy (base : UInt16) (h : (p.followedBy more).WellFormed entryPoint)
    (entry : entryPoint ∈ p.functions.map Function.name) :
    ∃ rest, (p.followedBy more).code base entryPoint = p.code base entryPoint ++ rest := by
  have agree := link_agree base h.distinct
  have functions := ((wellFormed_iff _ _).1 (h.of_followedBy entry)).1
  have same := functionsCode_congr agree p.functions stubSize functions (fun _ hn => absurd hn List.not_mem_nil)
    fun _ hn => hn
  refine ⟨functionsCode ((p.followedBy more).link base) (stubSize + functionsSize p.functions) more, ?_⟩
  rw [code, code, agree.entry entryPoint entry, same, List.append_assoc, ← functionsCode_append]
  rfl

end Program

/-! ## Failures -/

theorem lowerFunctions_append (fs gs : List Function) :
    lowerFunctions (fs ++ gs) = (do lowerFunctions fs; lowerFunctions gs) := by
  induction fs with
  | nil => rfl
  | cons f fs ih =>
    rw [List.cons_append, lowerFunctions, lowerFunctions, ih]
    simp only [bind_assoc]

open Gen

/-- The stub and functions behind it, reported as `count` functions. -/
def lowerOpening (count : Nat) (entryPoint : String) (fs : List Function) : Gen Fixup := do
  report (.started count entryPoint)
  let entry ← emitFixup (.movImm .ax 0) .word
  emit (.callReg .ax)
  emit (.dosCall .exit)
  lowerFunctions fs
  return entry

/-- Points the stub at the entry point. -/
def lowerStart (entryPoint : String) (entry : Fixup) : Gen Unit := do
  match (← get).functions.address? entryPoint with
  | none => reject (.missingEntryPoint entryPoint)
  | some start =>
    patch entry start
    report (.finished (← position))

namespace Program

variable {p : Program} {more : List Function} {entryPoint : String}

theorem lower_eq_opening (p : Program) (entryPoint : String) :
    p.lower entryPoint = lowerOpening p.functions.length entryPoint p.functions >>= lowerStart entryPoint := by
  simp only [lower, lowerOpening, bind_assoc, pure_bind]
  rfl

theorem lower_followedBy (p : Program) (more : List Function) (entryPoint : String) :
    (p.followedBy more).lower entryPoint = (do
      let entry ← lowerOpening (p.functions ++ more).length entryPoint p.functions
      lowerFunctions more
      lowerStart entryPoint entry) := by
  rw [lower_eq_opening]
  simp only [followedBy, lowerOpening, lowerFunctions_append, bind_assoc, pure_bind]

/-- How many functions are reported makes no difference to how lowering goes. -/
theorem paired_opening (n m : Nat) (entryPoint : String) (fs : List Function) :
    (Comparison.elsewhere True).Steps 0 .outside .outside (lowerOpening n entryPoint fs)
      (lowerOpening m entryPoint fs) := by
  refine (paired_report _ _).seq fun _ _ => (paired_emitFixup (by decide)).bind fun _ _ _ _ _ => ?_
  refine (paired_emit _).seq fun _ _ => (paired_emit _).seq fun _ _ => ?_
  exact (paired_lowerFunctions (.refl (fun _ => rfl) (.inl trivial))).seq fun _ _ => .pure fun _ _ => trivial

/-- The last step fails for want of the entry point, or by a patch outside of the image. -/
theorem lowerStart_error {entry : Fixup} {g g' : Generator} {f : Failure}
    (h : lowerStart entryPoint entry g = .error f g') :
    f = .rejected (.missingEntryPoint entryPoint) ∨ f = .crashed := by
  have run : lowerStart entryPoint entry g = (match g.functions.address? entryPoint with
      | none => reject (.missingEntryPoint entryPoint)
      | some start => (do patch entry start; report (.finished (← position)) : Gen Unit)) g := rfl
  rw [run] at h
  cases hs : g.functions.address? entryPoint with
  | none =>
    simp only [hs] at h
    cases h
    exact .inl rfl
  | some start =>
    simp only [hs] at h
    by_cases inside : entry.pos + entry.width.size ≤ g.image.size
    · have patched : patch entry start g = .ok () { g with
          image := { g.image with bytes := Image.overwrite g.image.bytes entry.pos (entry.patchBytes start) }
          events := g.events.push (.patched entry.pos start) } := by
        show onImage (Image.patch entry start) { g with events := g.events.push (.patched entry.pos start) } = _
        simp only [onImage, Image.patch, if_pos inside]
      simp only [bind, EStateM.bind, patched] at h
      cases h
    · have outside : patch entry start g =
          .error .crashed { g with events := g.events.push (.patched entry.pos start) } := by
        show onImage (Image.patch entry start) { g with events := g.events.push (.patched entry.pos start) } = _
        simp only [onImage, Image.patch, if_neg inside]
      simp only [bind, EStateM.bind, outside] at h
      cases h
      exact .inr rfl

theorem compile_ne_crashed {options : Options} (layout : options.loadBase.toNat + options.capacity ≤ segmentSize) :
    p.compile options ≠ .error .crashed := by
  intro h
  by_cases ok : p.WellFormed options.entryPoint ∧ p.size ≤ options.capacity
  · rw [compile_eq_code layout ok.1 ok.2] at h
    cases h
  · obtain ⟨e, he⟩ := compile_refused layout ok
    rw [he] at h
    cases h

/-- What goes wrong before the entry point is looked up goes wrong with every extension. -/
theorem lower_error_followedBy {g g' : Generator} {f : Failure} (h : p.lower entryPoint g = .error f g')
    (entry : f ≠ .rejected (.missingEntryPoint entryPoint)) (crash : f ≠ .crashed) :
    ∃ k, (p.followedBy more).lower entryPoint g = .error f k := by
  have run : ∀ {α β : Type} (x : Gen α) (k : α → Gen β), (x >>= k) g = EStateM.bind x k g := fun _ _ => rfl
  rw [lower_eq_opening, run, EStateM.bind] at h
  rw [lower_followedBy, run, EStateM.bind]
  have opening := paired_opening p.functions.length (p.functions ++ more).length entryPoint p.functions
  rcases opening.elsewhere (Comparison.elsewhere_refl True g) with ⟨_, _, _, _, ho, -⟩ | ⟨f', _, k, ho, ho', -⟩
  · rw [ho] at h
    rcases lowerStart_error h with h | h
    · exact absurd h entry
    · exact absurd h crash
  · rw [ho] at h
    cases h
    rw [ho']
    exact ⟨k, rfl⟩

theorem compile_error_followedBy {options : Options} {f : Failure} (h : p.compile options = .error f)
    (entry : f ≠ .rejected (.missingEntryPoint options.entryPoint)) :
    (p.followedBy more).compile options = .error f := by
  by_cases layout : options.loadBase.toNat + options.capacity ≤ segmentSize
  · have crash : f ≠ .crashed := fun hf => compile_ne_crashed layout (hf ▸ h)
    obtain ⟨g, failed⟩ := lower_of_compile_error h layout
    obtain ⟨k, fails⟩ : ∃ k, (p.followedBy more).lower options.entryPoint _ = .error f k :=
      lower_error_followedBy failed entry crash
    rw [compile_eq_lower layout, fails]
    rfl
  -- Nothing of the program has been looked at when the layout is refused.
  · obtain ⟨e, he⟩ := create_eq_error layout
    rw [compile_eq_bind, he] at h
    rw [compile_eq_bind, he]
    exact h

/-- An extension that compiles starts with the image of the program, if the program has the entry
    point; and what is wrong with a program, but for a missing entry point, is wrong with every
    extension of it. -/
theorem extension_keeps (p : Program) (more : List Function) (options : Options) :
    (∀ image', (p.followedBy more).compile options = .ok image' → options.entryPoint ∈ p.functions.map Function.name →
        ∃ image, p.compile options = .ok image ∧ image.toList <+: image'.toList) ∧
      ∀ f, p.compile options = .error f → (∀ name, f ≠ .rejected (.missingEntryPoint name)) →
        (p.followedBy more).compile options = .error f := by
  refine ⟨fun image' h entry => ?_, fun f h hf => compile_error_followedBy h (hf _)⟩
  obtain ⟨hw, hr, code'⟩ := of_compile h
  obtain ⟨rest, split⟩ := code_followedBy options.loadBase hw entry
  refine ⟨_, compile_eq_code (layout_of_compile h) (hw.of_followedBy entry)
    (Nat.le_trans (size_le_followedBy p more) hr), rest, ?_⟩
  rw [code', split]

/-- The sample with a function behind it that calls its first one; and a function that reads an
    undeclared variable, without an entry point and with one behind it. -/
theorem sample_extended :
    (∃ image image', sample.compile {} = .ok image ∧
        (sample.followedBy [⟨"last", .int, [], [.ret (.call "three" [])]⟩]).compile {} = .ok image' ∧
        image.toList <+: image'.toList) ∧
      (followedBy ⟨[⟨"f", .int, [], [.ret (.ident "x")]⟩]⟩ [⟨"main", .int, [], []⟩]).compile {} =
        .error (.rejected (.undefinedIdentifier "x" "f")) := by
  have compiled := @compile_eq_code (sample.followedBy [⟨"last", .int, [], [.ret (.call "three" [])]⟩]) {}
    (by decide +kernel)
    (by decide +kernel) (by decide +kernel)
  obtain ⟨image, first, starts⟩ := (extension_keeps sample _ {}).1 _ compiled (by decide +kernel)
  have refused : compile ⟨[⟨"f", .int, [], [.ret (.ident "x")]⟩]⟩ {} =
      .error (.rejected (.undefinedIdentifier "x" "f")) := by
    decide +kernel
  exact ⟨⟨image, _, first, compiled, starts⟩, (extension_keeps _ _ {}).2 _ refused fun _ h => by cases h⟩

end Program

end DotCom
