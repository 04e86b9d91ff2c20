/-
  DotCom.Proofs.Lowering.Comparison — two runs of lowering side by side. A comparison says what the
  runs have in common: which names, words, images and tables correspond. From corresponding states a
  step of both runs succeeds in both, with corresponding results, or is refused in both for
  corresponding reasons; the second run may also stop alone, where it has less room. No step crashes.

  - `Comparison`: what corresponds, and what images and tables have to keep of it.
  - `Comparison.Paired`: the judgement about two steps. It carries a number of bytes that both images
    have reached, since a placeholder stays where it is while the images grow.
  - `Paired.bind`: one step after another.

  Everything above single steps is compared once, for all comparisons, in `Lowering.Pairs`.
-/

import DotCom.Proofs.Lowering.Programs
import DotCom.Proofs.Renamed

namespace DotCom

/-- Chunks of one length, which are the same where `fixed` holds. -/
structure Chunks (fixed : Prop) (bs cs : List UInt8) : Prop where
  length : bs.length = cs.length
  same : fixed → bs = cs

theorem Chunks.refl {fixed : Prop} (bs : List UInt8) : Chunks fixed bs bs := ⟨rfl, fun _ => rfl⟩

theorem Chunks.patch {fixed : Prop} {v w : UInt16} (f : Fixup) (h : fixed → v = w) :
    Chunks fixed (f.patchBytes v) (f.patchBytes w) := by
  refine ⟨?_, fun fixed => by rw [h fixed]⟩
  rw [Fixup.patchBytes, Fixup.patchBytes, List.length_take, List.length_take]
  rfl

/-- Look-ups with the same answer. -/
theorem rel_of_eq {fixed : Prop} {r s : Option UInt16} (h : r = s) : Option.Rel (fun v w => fixed → v = w) r s := by
  subst h
  cases r with
  | none => exact .none
  | some v => exact .some fun _ => rfl

theorem eq_puts_iff {a b : String} (h : a = b) : a = puts ↔ b = puts := by rw [h]

theorem capacity_le_of_eq {c d : Nat} (h : c = d) : d ≤ c := Nat.le_of_eq h.symm

/-- What two runs of lowering are to have in common. -/
structure Comparison where
  /-- Names of functions that correspond. -/
  names : String → String → Prop
  /-- Errors are the same, and not only of the same kind. -/
  exact : Prop
  /-- Addresses are the same, and so are all bytes. -/
  fixed : Prop
  /-- There may be chains with a wrong number of operands. -/
  chains : Prop
  /-- No byte before this offset is written. -/
  floor : Nat
  /-- The frames below that of a function, in the first run. -/
  below : Frames → Prop
  capacities : Nat → Nat → Prop
  images : Image → Image → Prop
  tables : FunctionTable → FunctionTable → Prop
  builtin : ∀ {a b}, names a b → (a = puts ↔ b = puts)
  narrower : ∀ {c d}, capacities c d → d ≤ c
  size : ∀ {i j}, images i j → i.size = j.size
  low : ∀ {i j}, images i j → floor ≤ i.size
  capacity : ∀ {i j}, images i j → capacities i.capacity j.capacity
  address : ∀ {i j}, images i j → fixed → i.address = j.address
  append : ∀ {i j bs cs}, images i j → Chunks fixed bs cs → i.size + bs.length ≤ i.capacity →
    j.size + cs.length ≤ j.capacity → images { i with bytes := i.bytes ++ bs } { j with bytes := j.bytes ++ cs }
  overwrite : ∀ {i j pos bs cs}, images i j → floor ≤ pos → Chunks fixed bs cs →
    images { i with bytes := Image.overwrite i.bytes pos bs } { j with bytes := Image.overwrite j.bytes pos cs }
  lookup : ∀ {t u a b}, tables t u → names a b →
    Option.Rel (fun v w => fixed → v = w) (t.address? a) (u.address? b)
  define : ∀ {t u a b v w}, tables t u → names a b → (fixed → v = w) → t.address? a = none →
    tables ⟨(a, v) :: t.entries⟩ ⟨(b, w) :: u.entries⟩

/-- The errors that lowering ends with. -/
def CompileError.Native (chains : Prop) : CompileError → Prop
  | .noActiveScope | .invalidLayout .. => False
  | .malformedChain .. => chains
  | _ => True

/-- Frames with slots at the same places, under names that correspond. -/
structure Frame.Alike (V : String → String → Prop) (fr fr' : Frame) : Prop where
  allocated : fr.allocated = fr'.allocated
  slots : Keyed V fr.slots fr'.slots

/-- Between functions, or in one whose variables correspond by `V`. -/
inductive Phase where
  | outside
  | inside (V : String → String → Prop)

variable {α β γ δ : Type}

namespace Comparison

section

variable (C : Comparison)

/-- The frames of a function in both runs. -/
structure Tops (V : String → String → Prop) (fr fr' : Frame) : Prop where
  alike : fr.Alike V fr'
  sound : fr.Sound
  function : C.exact → fr.function = fr'.function

/-- In a function its frame is on top in both runs. -/
def Stands : Phase → Frames → Frames → Prop
  | .outside, frames, _ => C.below frames
  | .inside V, frames, frames' => ∃ fr fr' rest rest',
      frames = fr :: rest ∧ frames' = fr' :: rest' ∧ C.below rest ∧ C.Tops V fr fr'

structure Related (φ : Phase) (g h : Generator) : Prop where
  image : C.images g.image h.image
  functions : C.tables g.functions h.functions
  frames : C.Stands φ g.frames h.frames

inductive Errors : CompileError → CompileError → Prop
  | same {e e' : CompileError} (kind : e.ctorIdx = e'.ctorIdx) (exact : C.exact → e = e')
      (native : e.Native C.chains) : Errors e e'
  /-- An overflow names the capacity. -/
  | overflow {c c' : Nat} (n : Nat) (h : C.capacities c c') : Errors (.bufferOverflow n c) (.bufferOverflow n c')

/-- The second run has no room where the first has. -/
def Parted (e : CompileError) : Prop := ∃ n c c', C.capacities c c' ∧ c' < n ∧ n ≤ c ∧ e = .bufferOverflow n c'

/-- What comes of two steps. `R` speaks about their results and the bytes that there are then. -/
inductive Outcome (n : Nat) (φ : Phase) (R : α → β → Nat → Prop) :
    EStateM.Result Failure Generator α → EStateM.Result Failure Generator β → Prop
  | ok {a : α} {b : β} {g h : Generator} (states : C.Related φ g h) (reached : n ≤ g.image.size)
      (results : R a b g.image.size) : Outcome n φ R (.ok a g) (.ok b h)
  | refused {e e' : CompileError} {g h : Generator} (errors : C.Errors e e') (states : ∃ φ, C.Related φ g h) :
      Outcome n φ R (.error (.rejected e) g) (.error (.rejected e') h)
  | parted {r : EStateM.Result Failure Generator α} {e : CompileError} {h : Generator} (short : C.Parted e) :
      Outcome n φ R r (.error (.rejected e) h)

/-- Two steps go together from related states with `n` bytes or more. -/
def Paired (n : Nat) (φ ψ : Phase) (R : α → β → Nat → Prop) (x : Gen α) (y : Gen β) : Prop :=
  ∀ ⦃g h⦄, C.Related φ g h → n ≤ g.image.size → C.Outcome n ψ R (x g) (y h)

/-- Two steps whose results say nothing. -/
abbrev Steps (n : Nat) (φ ψ : Phase) (x : Gen α) (y : Gen β) : Prop := C.Paired n φ ψ (fun _ _ _ => True) x y

end

variable {C : Comparison} {n : Nat} {φ ψ χ : Phase} {V : String → String → Prop}

theorem Errors.kind {e e' : CompileError} (h : C.Errors e e') : e.ctorIdx = e'.ctorIdx := by
  cases h with
  | same kind _ _ => exact kind
  | overflow n _ => rfl

theorem Errors.native {e e' : CompileError} (h : C.Errors e e') : e.Native C.chains := by
  cases h with
  | same _ _ native => exact native
  | overflow n _ => trivial

theorem Errors.eq {e e' : CompileError} (h : C.Errors e e') (exact : C.exact)
    (equal : ∀ {c d}, C.capacities c d → c = d) :
    e = e' := by
  cases h with
  | same _ same _ => exact same exact
  | overflow n h => rw [equal h]

/-- Where the runs have the same room, they end together. -/
theorem Outcome.together {R : α → β → Nat → Prop} {r : EStateM.Result Failure Generator α}
    {s : EStateM.Result Failure Generator β} (h : C.Outcome n φ R r s) (equal : ∀ {c d}, C.capacities c d → c = d) :
    (∃ a b g k, r = .ok a g ∧ s = .ok b k ∧ C.Related φ g k ∧ R a b g.image.size) ∨
      ∃ e e' g k, r = .error (.rejected e) g ∧ s = .error (.rejected e') k ∧ C.Errors e e' ∧
        ∃ ψ, C.Related ψ g k := by
  cases h with
  | ok states _ results => exact .inl ⟨_, _, _, _, rfl, rfl, states, results⟩
  | refused errors states => exact .inr ⟨_, _, _, _, rfl, rfl, errors, states⟩
  | parted short =>
    obtain ⟨needed, c, d, rooms, beyond, inside, -⟩ := short
    have := equal rooms
    omega

theorem Outcome.weaken {m : Nat} {R : α → β → Nat → Prop} {r : EStateM.Result Failure Generator α}
    {s : EStateM.Result Failure Generator β} (h : C.Outcome m φ R r s) (le : n ≤ m) : C.Outcome n φ R r s := by
  cases h with
  | ok states reached results => exact .ok states (Nat.le_trans le reached) results
  | refused errors states => exact .refused errors states
  | parted short => exact .parted short

namespace Paired

variable {R R' : α → β → Nat → Prop} {S : γ → δ → Nat → Prop} {x : Gen α} {y : Gen β}

theorem pure {a : α} {b : β} (h : ∀ m, n ≤ m → R a b m) : C.Paired n φ φ R (pure a) (pure b) :=
  fun _ _ states reached => .ok states reached (h _ reached)

theorem bind {f : α → Gen γ} {k : β → Gen δ} (hx : C.Paired n φ ψ R x y)
    (hf : ∀ m a b, n ≤ m → R a b m → C.Paired m ψ χ S (f a) (k b)) : C.Paired n φ χ S (x >>= f) (y >>= k) := by
  intro g h states reached
  have left : (x >>= f) g = EStateM.bind x f g := rfl
  have right : (y >>= k) h = EStateM.bind y k h := rfl
  have first := hx states reached
  rw [left, right, EStateM.bind, EStateM.bind]
  generalize x g = r at first
  generalize y h = s at first
  cases first with
  | ok states reached results => exact (hf _ _ _ reached results states (Nat.le_refl _)).weaken reached
  | refused errors states => exact .refused errors states
  | parted short => exact .parted short

/-- After two steps without a result. -/
theorem seq {x y : Gen Unit} {f : Unit → Gen γ} {k : Unit → Gen δ} (hx : C.Steps n φ ψ x y)
    (hf : ∀ m, n ≤ m → C.Paired m ψ χ S (f ()) (k ())) : C.Paired n φ χ S (x >>= f) (y >>= k) :=
  hx.bind fun m _ _ le _ => hf m le

theorem mono (hx : C.Paired n φ ψ R x y) (h : ∀ a b m, R a b m → R' a b m) : C.Paired n φ ψ R' x y := by
  intro g k states reached
  have run := hx states reached
  generalize x g = r at run ⊢
  generalize y k = s at run ⊢
  cases run with
  | ok states reached results => exact .ok states reached (h _ _ _ results)
  | refused errors states => exact .refused errors states
  | parted short => exact .parted short

theorem forget (hx : C.Paired n φ ψ R x y) : C.Steps n φ ψ x y := hx.mono fun _ _ _ _ => trivial

theorem reject {e e' : CompileError} (h : C.Errors e e') : C.Paired n φ ψ R (Gen.reject e) (Gen.reject e') :=
  fun _ _ states _ => .refused h ⟨φ, states⟩

/-- What stands behind a refusal is not reached. -/
theorem stops {e e' : CompileError} (h : C.Errors e e') {f : α → Gen γ} {k : β → Gen δ} :
    C.Paired n φ ψ S (Gen.reject e >>= f) (Gen.reject e' >>= k) :=
  bind (R := fun _ _ _ => False) (ψ := ψ) (reject h) fun _ _ _ _ h => h.elim

theorem read {f : Generator → Gen γ} {k : Generator → Gen δ}
    (hf : ∀ g h, C.Related φ g h → C.Paired n φ ψ S (f g) (k h)) :
    C.Paired n φ ψ S (get >>= f) (get >>= k) :=
  fun g h states reached => hf g h states states reached

end Paired

end Comparison

/-! ## The image -/

/-- A placeholder in the part of an image that may change, among its first `n` bytes. -/
def Fixup.Lies (floor : Nat) (fixup : Fixup) (n : Nat) : Prop :=
  floor ≤ fixup.pos ∧ fixup.pos + fixup.width.size ≤ n

theorem Fixup.Lies.later {floor n m : Nat} {fixup : Fixup} (h : fixup.Lies floor n) (le : n ≤ m) : fixup.Lies floor m :=
  ⟨h.1, Nat.le_trans h.2 le⟩

variable {C : Comparison} {n : Nat} {φ ψ : Phase} {V : String → String → Prop}

namespace Gen

theorem paired_report (a b : Event) : C.Steps n φ φ (report a) (report b) := fun _ _ states reached =>
  .ok ⟨states.image, states.functions, states.frames⟩ reached trivial

theorem paired_position : C.Paired n φ φ (fun a b m => a = m ∧ b = m) position position :=
  fun _ _ states reached => .ok states reached ⟨rfl, (C.size states.image).symm⟩

theorem paired_address : C.Paired n φ φ (fun a b _ => C.fixed → a = b) address address :=
  fun _ _ states reached => .ok states reached (C.address states.image)

theorem paired_bytes {bs cs : List UInt8} (h : Chunks C.fixed bs cs) :
    C.Paired n φ φ (fun _ _ m => C.floor + bs.length ≤ m) (onImage (Image.emit bs)) (onImage (Image.emit cs)) := by
  intro g k states reached
  have size := C.size states.image
  have low := C.low states.image
  have capacity := C.capacity states.image
  have narrower := C.narrower capacity
  have length := h.length
  by_cases fits : g.image.size + bs.length ≤ g.image.capacity
  · by_cases fits' : k.image.size + cs.length ≤ k.image.capacity
    · simp only [onImage, Image.emit_of_fits fits, Image.emit_of_fits fits']
      refine .ok ⟨C.append states.image h fits fits', states.functions, states.frames⟩ ?_ ?_
      · rw [Image.size_append]
        omega
      · rw [Image.size_append]
        omega
    · simp only [onImage, Image.emit_of_not_fits fits']
      exact .parted ⟨_, _, _, capacity, by omega, by omega, rfl⟩
  · have fits' : ¬ k.image.size + cs.length ≤ k.image.capacity := by omega
    simp only [onImage, Image.emit_of_not_fits fits, Image.emit_of_not_fits fits', ← size, ← length]
    exact .refused (.overflow _ capacity) ⟨φ, states⟩

theorem paired_emit (i : Instr) : C.Steps n φ φ (emit i) (emit i) := (paired_bytes (.refl i.encode)).forget

/-- An instruction with an address in it. -/
theorem paired_movImm {v w : UInt16} (dst : Reg) (h : C.fixed → v = w) :
    C.Steps n φ φ (emit (.movImm dst v)) (emit (.movImm dst w)) := by
  have chunks : Chunks C.fixed (Instr.movImm dst v).encode (Instr.movImm dst w).encode :=
    ⟨rfl, fun fixed => by rw [h fixed]⟩
  exact (paired_bytes chunks).forget

theorem paired_emitAll (is : List Instr) : C.Steps n φ φ (emitAll is) (emitAll is) := by
  induction is generalizing n with
  | nil => exact .pure fun _ _ => trivial
  | cons i is ih => exact (paired_emit i).seq fun _ _ => ih

/-- A placeholder is found from the end of what was emitted. -/
theorem emitFixup_eq {i : Instr} {width : Width} (h : width.size ≤ i.size) :
    emitFixup i width = (do emit i; return ⟨(← position) - width.size, width⟩) := by
  have long : ¬ i.encode.length < width.size := Nat.not_lt.2 h
  funext g
  by_cases room : g.image.size + i.encode.length ≤ g.image.capacity
  · simp only [emitFixup, emit, onImage, Image.emitFixup, if_neg long, bind, EStateM.bind, Image.emit_of_fits room]
    rfl
  · simp only [emitFixup, emit, onImage, Image.emitFixup, if_neg long, bind, EStateM.bind, Image.emit_of_not_fits room]

theorem paired_emitFixup {i : Instr} {width : Width} (h : width.size ≤ i.size) :
    C.Paired n φ φ (fun f f' m => f = f' ∧ f.Lies C.floor m) (emitFixup i width) (emitFixup i width) := by
  have length : i.encode.length = i.size := rfl
  rw [emitFixup_eq h]
  refine (paired_bytes (.refl i.encode)).bind fun m _ _ _ emitted => ?_
  refine paired_position.bind fun stop a b le ends => .pure fun last le' => ?_
  obtain ⟨rfl, rfl⟩ := ends
  refine ⟨rfl, ?_, ?_⟩
  · show C.floor ≤ b - width.size
    omega
  · show b - width.size + width.size ≤ last
    omega

theorem paired_patch {f : Fixup} (h : f.Lies C.floor n) {v w : UInt16} (hv : C.fixed → v = w) :
    C.Steps n φ φ (patch f v) (patch f w) := by
  refine (paired_report _ _).seq fun m le g k states reached => ?_
  have size := C.size states.image
  have inside : f.pos + f.width.size ≤ g.image.size := (h.later (Nat.le_trans le reached)).2
  have inside' : f.pos + f.width.size ≤ k.image.size := size ▸ inside
  simp only [onImage, Image.patch, if_pos inside, if_pos inside']
  refine .ok ⟨C.overwrite states.image h.1 (.patch f hv), states.functions, states.frames⟩ ?_ trivial
  rwa [Image.size, Image.size_overwrite]

theorem paired_patchAll {fs : List Fixup} (h : ∀ f ∈ fs, f.Lies C.floor n) {v w : UInt16} (hv : C.fixed → v = w) :
    C.Steps n φ φ (patchAll v fs) (patchAll w fs) := by
  induction fs generalizing n with
  | nil => exact .pure fun _ _ => trivial
  | cons f fs ih =>
    obtain ⟨first, others⟩ := List.forall_mem_cons.1 h
    exact (paired_patch first hv).seq fun m le => ih fun f hf => (others f hf).later le

/-! ## Frames -/

/-- A look-up that succeeds with the same result in both runs, or is refused in both. -/
theorem paired_attempt {r r' : Except Failure α}
    (h : (∃ a, r = .ok a ∧ r' = .ok a) ∨ ∃ e e', r = .error (.rejected e) ∧ r' = .error (.rejected e') ∧
      C.Errors e e') :
    C.Paired n φ φ (fun a b _ => a = b) (attempt r) (attempt r') := by
  rcases h with ⟨a, rfl, rfl⟩ | ⟨e, e', rfl, rfl, he⟩
  · exact .pure fun _ _ => rfl
  · exact .reject he

theorem paired_frame : C.Paired n (.inside V) (.inside V) (fun fr fr' _ => C.Tops V fr fr') frame frame := by
  refine .read fun g h states => ?_
  obtain ⟨fr, fr', _, _, e, e', -, tops⟩ := states.frames
  rw [e, e']
  exact .pure fun _ _ => tops

end Gen

section

variable {fr fr' : Frame} {x y : String}

theorem Frame.Alike.offset?_eq (h : fr.Alike V fr') (hV : OneToOne V) (hxy : V x y) : fr.offset? x = fr'.offset? y :=
  lookup_eq hV h.slots hxy

theorem Frame.Alike.contains_eq (h : fr.Alike V fr') (hV : OneToOne V) (hxy : V x y) :
    fr.contains x = fr'.contains y :=
  congrArg Option.isSome (h.offset?_eq hV hxy)

theorem Frame.Alike.bind (h : fr.Alike V fr') (hxy : V x y) : (fr.bind x).Alike V (fr'.bind y) := by
  refine ⟨?_, .cons ⟨hxy, ?_⟩ h.slots⟩
  · show fr.allocated + 2 = fr'.allocated + 2
    rw [h.allocated]
  · show fr.allocated + 2 = fr'.allocated + 2
    rw [h.allocated]

/-- An error that names a variable and its function. -/
theorem Comparison.Tops.errors (h : C.Tops V fr fr') {e : String → String → CompileError}
    (kind : ∀ a b a' b', (e a b).ctorIdx = (e a' b').ctorIdx) (native : ∀ a b, (e a b).Native C.chains)
    (same : C.exact → x = y) : C.Errors (e x fr.function) (e y fr'.function) :=
  .same (kind ..) (fun exact => by rw [same exact, h.function exact]) (native ..)

end

namespace Gen

theorem paired_displacement (hV : OneToOne V) {fr fr' : Frame} (tops : C.Tops V fr fr') {x y : String} (hxy : V x y)
    (same : C.exact → x = y) :
    C.Paired n φ φ (fun a b _ => a = b) (attempt (fr.displacement x)) (attempt (fr'.displacement y)) := by
  have offset := tops.alike.offset?_eq hV hxy
  refine paired_attempt ?_
  by_cases hc : fr.contains x
  · obtain ⟨o, ho⟩ := Frame.contains_iff.1 hc
    have left := Frame.displacement_eq tops.sound hc
    refine .inl ⟨_, left, ?_⟩
    rw [← left, Frame.displacement, Frame.displacement, ← offset, ho]
  · have hc' : ¬ fr'.contains y := by rwa [← tops.alike.contains_eq hV hxy]
    refine .inr ⟨_, _, Frame.displacement_error hc, Frame.displacement_error hc', ?_⟩
    exact tops.errors (e := .undefinedIdentifier) (fun _ _ _ _ => rfl) (fun _ _ => trivial) same

theorem paired_ensureUndeclared (hV : OneToOne V) {fr fr' : Frame} (tops : C.Tops V fr fr') {x y : String}
    (hxy : V x y) (same : C.exact → x = y) :
    C.Paired n φ φ (fun a b _ => a = b) (attempt (fr.ensureUndeclared x)) (attempt (fr'.ensureUndeclared y)) := by
  refine paired_attempt ?_
  unfold Frame.ensureUndeclared
  rw [tops.alike.contains_eq hV hxy]
  split
  · exact .inr ⟨_, _, rfl, rfl, tops.errors (e := .redeclaration) (fun _ _ _ _ => rfl) (fun _ _ => trivial) same⟩
  · exact .inl ⟨(), rfl, rfl⟩

theorem onFrames_eq {g : Generator} {edit : EStateM Failure Frames α} {a : α} {frames : Frames}
    (h : edit g.frames = .ok a frames) : onFrames edit g = .ok a { g with frames } := by
  simp only [onFrames, h]

theorem onTop_eq {g : Generator} {fr fr' : Frame} {rest : Frames} {edit : Frame.Edit α} {a : α}
    (top : g.frames = fr :: rest) (h : edit fr = .ok a fr') :
    onFrames (Frames.onTop edit) g = .ok a { g with frames := fr' :: rest } :=
  onFrames_eq (by simp only [top, Frames.onTop, h])

theorem onTop_error {g : Generator} {fr : Frame} {rest : Frames} {edit : Frame.Edit α} {e : Failure}
    (top : g.frames = fr :: rest) (h : edit fr = .error e fr) : onFrames (Frames.onTop edit) g = .error e g := by
  simp only [onFrames, top, Frames.onTop, h]
  rw [← top]

/-- One more word in the frame on top. -/
theorem paired_slot (hV : OneToOne V) {x y : String} (hxy : V x y) (same : C.exact → x = y) :
    C.Steps n (.inside V) (.inside V) (onFrames (Frames.onTop (Frame.declare x 2)))
      (onFrames (Frames.onTop (Frame.declare y 2))) := by
  intro g h states reached
  obtain ⟨fr, fr', rest, rest', hg, hh, below, tops⟩ := states.frames
  by_cases old : fr.contains x
  · have old' : fr'.contains y := by rwa [← tops.alike.contains_eq hV hxy]
    rw [onTop_error hg (Frame.declare_of_contains old 2), onTop_error hh (Frame.declare_of_contains old' 2)]
    have errors := tops.errors (e := .redeclaration) (fun _ _ _ _ => rfl) (fun _ _ => trivial) same
    exact .refused errors ⟨_, states⟩
  · have old' : ¬ fr'.contains y := by rwa [← tops.alike.contains_eq hV hxy]
    have left := Frame.declare_of_not_contains old 2
    have right := Frame.declare_of_not_contains old' 2
    by_cases room : fr.allocated.toNat + 2 ≤ Frame.maxAllocated
    · have room' : fr'.allocated.toNat + 2 ≤ Frame.maxAllocated := by rwa [← tops.alike.allocated]
      rw [onTop_eq hg (left.trans (Frame.reserve_two x room)), onTop_eq hh (right.trans (Frame.reserve_two y room'))]
      have grown : C.Tops V (fr.bind x) (fr'.bind y) := ⟨tops.alike.bind hxy, tops.sound.bind room, tops.function⟩
      exact .ok ⟨states.image, states.functions, _, _, _, _, rfl, rfl, below, grown⟩ reached trivial
    · have room' : ¬ fr'.allocated.toNat + 2 ≤ Frame.maxAllocated := by rwa [← tops.alike.allocated]
      rw [onTop_error hg (left.trans (if_neg room)), onTop_error hh (right.trans (if_neg room'))]
      exact .refused (.same rfl (fun exact => by rw [tops.function exact]) trivial) ⟨_, states⟩

/-- A function opens its frame on top of any others. -/
theorem paired_enter {a b : String} (same : C.exact → a = b) :
    C.Steps n .outside (.inside V) (onFrames (Frames.push { function := a }))
      (onFrames (Frames.push { function := b })) := by
  intro g h states reached
  rw [onFrames_eq (show Frames.push { function := a } g.frames = .ok () ({ function := a } :: g.frames) from rfl),
    onFrames_eq (show Frames.push { function := b } h.frames = .ok () ({ function := b } :: h.frames) from rfl)]
  have tops : C.Tops V { function := a } { function := b } := ⟨⟨rfl, .nil⟩, Frame.Sound.start a, same⟩
  exact .ok ⟨states.image, states.functions, _, _, _, _, rfl, rfl, states.frames, tops⟩ reached trivial

theorem leaveFunction_eq {g : Generator} {frame : Frame} {rest : Frames} (h : g.frames = frame :: rest) :
    leaveFunction g = report (.left frame.function frame.allocated.toNat) { g with frames := rest } := by
  have off : onFrames Frames.pop g = .ok (some frame) { g with frames := rest } :=
    onFrames_eq (by rw [h]; rfl)
  simp only [leaveFunction, bind, EStateM.bind, off]

theorem paired_leaveFunction : C.Steps n (.inside V) .outside leaveFunction leaveFunction := by
  intro g h states reached
  obtain ⟨fr, fr', rest, rest', hg, hh, below, -⟩ := states.frames
  rw [leaveFunction_eq hg, leaveFunction_eq hh]
  exact paired_report _ _ (φ := .outside) ⟨states.image, states.functions, below⟩ reached

/-! ## Functions -/

theorem paired_define {a b : String} (hab : C.names a b) (same : C.exact → a = b) {v w : UInt16}
    (hv : C.fixed → v = w) :
    C.Steps n φ φ (onFunctions (FunctionTable.define a v)) (onFunctions (FunctionTable.define b w)) := by
  intro g h states reached
  have lookup := C.lookup states.functions hab
  simp only [onFunctions, FunctionTable.define]
  cases left : g.functions.address? a with
  | none =>
    rw [left] at lookup
    generalize h.functions.address? b = r at lookup
    cases lookup with
    | none => exact .ok ⟨states.image, C.define states.functions hab hv left, states.frames⟩ reached trivial
  | some u =>
    rw [left] at lookup
    generalize h.functions.address? b = r at lookup
    cases lookup with
    | some => exact .refused (.same rfl (fun exact => by rw [same exact]) trivial) ⟨_, states⟩

theorem paired_callee {a b : String} (hab : C.names a b) (same : C.exact → a = b) :
    C.Paired n (.inside V) (.inside V) (fun v w _ => C.fixed → v = w) (callee a) (callee b) := by
  refine paired_frame.bind fun m fr fr' _ tops => .read fun g h states => ?_
  have lookup := C.lookup states.functions hab
  generalize g.functions.address? a = r at lookup ⊢
  generalize h.functions.address? b = s at lookup ⊢
  cases lookup with
  | some hv => exact .pure fun _ _ => hv
  | none => exact .reject (tops.errors (e := .unresolvedCallee) (fun _ _ _ _ => rfl) (fun _ _ => trivial) same)

end Gen

end DotCom
