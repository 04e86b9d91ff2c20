/-
  DotCom.Proofs.Construction — an image from its creation on, through any appends and patches. Appends of
  chunks with and without placeholders, appends that are refused and patches come in any order; a
  patch is made of a placeholder that was returned, as often as one likes.

  A session keeps what has happened beside the image: the chunks that were appended, each with the
  placeholder it ends with, and the patches that were made, the latest first. The bytes of the image
  are told from that record alone.

  - `Laid`: placeholders are the ends of their chunks, and the chunks stand one behind the other.
    `Laid.apart`: so no two placeholders overlap.
  - `Session.Kept.step`: what one request keeps. `Session.Kept.run`: what any number of them keep.
  - `Session.record_tells_image`: the bytes are those of the chunks, with the latest value in each placeholder that was
    patched; patches never leave the image, and those of different placeholders commute.
-/

import DotCom.Proofs.Lowering.Patches
import Mathlib.Data.List.Basic

namespace DotCom

theorem Width.size_pos (width : Width) : 0 < width.size := by
  cases width <;> decide

theorem Fixup.length_patchBytes (fixup : Fixup) (value : UInt16) :
    (fixup.patchBytes value).length = fixup.width.size := by
  rw [patchBytes, List.length_take, Word.length_bytes]
  cases fixup.width <;> rfl

namespace Image

/-! ## Sessions -/

/-- A chunk that was appended, and the placeholder it ends with. -/
structure Chunk where
  bytes : List UInt8
  fixup? : Option Fixup
  deriving DecidableEq, Repr

/-- What can be asked of an image. A chunk with a placeholder is as long as the placeholder at least. -/
inductive Request where
  | emit (chunk : List UInt8)
  | emitFixup (chunk : List UInt8) (width : Width) (long : width.size ≤ chunk.length)
  | patch (fixup : Fixup) (value : UInt16)

structure Session where
  image : Image
  /-- What was appended, in order. -/
  chunks : List Chunk := []
  /-- What was put in place of placeholders, the latest first. -/
  patches : List (Fixup × UInt16) := []

/-- The placeholders that chunks end with. -/
def fixups (chunks : List Chunk) : List Fixup := chunks.filterMap Chunk.fixup?

namespace Session

/-- Makes a request. A placeholder that was never returned is not patched. -/
def step (s : Session) : Request → Session
  | .emit chunk =>
    match Image.emit chunk s.image with
    | .ok () image => { s with image, chunks := s.chunks ++ [⟨chunk, none⟩] }
    | .error _ image => { s with image }
  | .emitFixup chunk width _ =>
    match Image.emitFixup chunk width s.image with
    | .ok fixup image => { s with image, chunks := s.chunks ++ [⟨chunk, some fixup⟩] }
    | .error _ image => { s with image }
  | .patch fixup value =>
    if fixup ∈ fixups s.chunks then
      match Image.patch fixup value s.image with
      | .ok () image => { s with image, patches := (fixup, value) :: s.patches }
      | .error _ image => { s with image }
    else s

/-- Makes requests in turn. -/
def run (s : Session) : List Request → Session
  | [] => s
  | r :: rs => (s.step r).run rs

end Session

/-- The bytes of a chunk: once its placeholder is patched, the latest value stands in place of its last bytes. -/
def Chunk.patched (patches : List (Fixup × UInt16)) (c : Chunk) : List UInt8 :=
  match c.fixup? with
  | none => c.bytes
  | some fixup =>
    match patches.lookup fixup with
    | none => c.bytes
    | some value => c.bytes.take (c.bytes.length - fixup.width.size) ++ fixup.patchBytes value

/-- The bytes of chunks one behind the other. -/
def patchedBytes (patches : List (Fixup × UInt16)) (chunks : List Chunk) : List UInt8 :=
  chunks.flatMap (Chunk.patched patches)

/-! ## Where placeholders lie -/

/-- Chunks from an offset on, each with its placeholder at its end. -/
def Laid : Nat → List Chunk → Prop
  | _, [] => True
  | start, c :: cs =>
    (∀ fixup, c.fixup? = some fixup →
      fixup.width.size ≤ c.bytes.length ∧ fixup.pos + fixup.width.size = start + c.bytes.length) ∧
    Laid (start + c.bytes.length) cs

variable {i : Nat} {c : Chunk} {cs : List Chunk} {f g : Fixup} {v w : UInt16} {patches : List (Fixup × UInt16)}

theorem mem_fixups_cons : f ∈ fixups (c :: cs) ↔ c.fixup? = some f ∨ f ∈ fixups cs := by
  simp only [fixups, List.mem_filterMap, List.mem_cons, exists_eq_or_imp]

theorem Laid.length_patched (h : Laid i (c :: cs)) : (c.patched patches).length = c.bytes.length := by
  unfold Chunk.patched
  split
  · rfl
  · rename_i fixup hf
    have long := (h.1 fixup hf).1
    split
    · rfl
    · rw [List.length_append, List.length_take, Fixup.length_patchBytes]
      omega

theorem Laid.length_patchedBytes (h : Laid i cs) :
    (patchedBytes patches cs).length = (cs.flatMap Chunk.bytes).length := by
  induction cs generalizing i with
  | nil => rfl
  | cons c cs ih =>
    rw [patchedBytes, List.flatMap_cons, List.length_append, h.length_patched, List.flatMap_cons,
      List.length_append, ← ih h.2]
    rfl

theorem Laid.concat (h : Laid i cs)
    (hc : ∀ fixup, c.fixup? = some fixup → fixup.width.size ≤ c.bytes.length ∧
      fixup.pos + fixup.width.size = i + (cs.flatMap Chunk.bytes).length + c.bytes.length) :
    Laid i (cs ++ [c]) := by
  induction cs generalizing i with
  | nil => exact ⟨hc, trivial⟩
  | cons d cs ih =>
    refine ⟨h.1, ih h.2 fun fixup hf => ?_⟩
    have := hc fixup hf
    rw [List.flatMap_cons, List.length_append] at this
    omega

/-- Placeholders lie among the chunks. -/
theorem Laid.bounds (h : Laid i cs) (hf : f ∈ fixups cs) :
    i ≤ f.pos ∧ f.pos + f.width.size ≤ i + (cs.flatMap Chunk.bytes).length := by
  induction cs generalizing i with
  | nil => cases hf
  | cons c cs ih =>
    rw [List.flatMap_cons, List.length_append]
    rcases mem_fixups_cons.1 hf with hf | hf
    · have := h.1 f hf
      omega
    · have := ih h.2 hf
      omega

/-- No two placeholders overlap: each ends before the next one starts. -/
theorem Laid.apart (h : Laid i cs) : (fixups cs).Pairwise fun f g => f.pos + f.width.size ≤ g.pos := by
  induction cs generalizing i with
  | nil => exact List.Pairwise.nil
  | cons c cs ih =>
    cases hc : c.fixup? with
    | none =>
      rw [fixups, List.filterMap_cons_none hc]
      exact ih h.2
    | some f =>
      rw [fixups, List.filterMap_cons_some hc]
      refine List.Pairwise.cons (fun g hg => ?_) (ih h.2)
      rw [(h.1 f hc).2]
      exact (h.2.bounds hg).1

theorem Laid.nodup (h : Laid i cs) : (fixups cs).Nodup :=
  h.apart.imp fun {f g} le e => by
    have := f.width.size_pos
    subst e
    omega

/-! ## Patches -/

theorem Chunk.patched_of_ne (h : c.fixup? ≠ some f) : c.patched ((f, v) :: patches) = c.patched patches := by
  unfold Chunk.patched
  cases hc : c.fixup? with
  | none => rfl
  | some g =>
    have ne : (g == f) = false := beq_eq_false_iff_ne.2 fun e => h (hc.trans (congrArg some e))
    simp only [List.lookup_cons, ne]

theorem patchedBytes_of_not_mem (h : f ∉ fixups cs) :
    patchedBytes ((f, v) :: patches) cs = patchedBytes patches cs := by
  refine List.flatMap_congr fun c hc => Chunk.patched_of_ne fun hf => h ?_
  exact List.mem_filterMap.2 ⟨c, hc, hf⟩

/-- The order of patches of different placeholders does not matter. -/
theorem patchedBytes_swap (ne : f ≠ g) :
    patchedBytes ((f, v) :: (g, w) :: patches) cs = patchedBytes ((g, w) :: (f, v) :: patches) cs := by
  refine List.flatMap_congr fun c _ => ?_
  by_cases hf : c.fixup? = some f
  · have hg : c.fixup? ≠ some g := fun hg => ne (Option.some.inj (hf.symm.trans hg))
    rw [Chunk.patched_of_ne hg]
    simp only [Chunk.patched, hf, List.lookup_cons_self]
  · rw [Chunk.patched_of_ne hf]
    unfold Chunk.patched
    split
    · rfl
    · rename_i g' hg'
      have other : (g' == f) = false := beq_eq_false_iff_ne.2 fun e => hf (hg'.trans (congrArg some e))
      simp only [List.lookup_cons, other]

/-- What a patch changes: the bytes of its placeholder, and no others. -/
theorem Laid.patch (h : Laid i cs) (hf : f ∈ fixups cs) (v : UInt16) (patches : List (Fixup × UInt16)) :
    ∃ before old after, patchedBytes patches cs = before ++ old ++ after ∧ i + before.length = f.pos ∧
      old.length = f.width.size ∧ patchedBytes ((f, v) :: patches) cs = before ++ f.patchBytes v ++ after := by
  induction cs generalizing i with
  | nil => cases hf
  | cons c cs ih =>
    have distinct := h.nodup
    by_cases hc : c.fixup? = some f
    · rw [fixups, List.filterMap_cons_some hc] at distinct
      have rest : patchedBytes ((f, v) :: patches) cs = patchedBytes patches cs :=
        patchedBytes_of_not_mem (List.nodup_cons.1 distinct).1
      obtain ⟨long, stop⟩ := h.1 f hc
      have front : (c.bytes.take (c.bytes.length - f.width.size)).length = c.bytes.length - f.width.size := by
        rw [List.length_take]
        omega
      obtain ⟨old, hold, now⟩ : ∃ old, old.length = f.width.size ∧
          c.patched patches = c.bytes.take (c.bytes.length - f.width.size) ++ old := by
        simp only [Chunk.patched, hc]
        cases patches.lookup f with
        | none =>
          refine ⟨c.bytes.drop (c.bytes.length - f.width.size), ?_, (List.take_append_drop _ _).symm⟩
          rw [List.length_drop]
          omega
        | some value => exact ⟨f.patchBytes value, f.length_patchBytes value, rfl⟩
      refine ⟨c.bytes.take (c.bytes.length - f.width.size), old, patchedBytes patches cs, ?_, ?_, hold, ?_⟩
      · rw [← now]
        rfl
      · rw [front]
        omega
      · rw [← rest]
        simp only [patchedBytes, List.flatMap_cons, Chunk.patched, hc, List.lookup_cons_self]
    · obtain ⟨before, old, after, now, pos, hold, new⟩ := ih h.2 ((mem_fixups_cons.1 hf).resolve_left hc)
      refine ⟨c.patched patches ++ before, old, after, ?_, ?_, hold, ?_⟩
      · show c.patched patches ++ patchedBytes patches cs = _
        rw [now]
        simp only [List.append_assoc]
      · rw [List.length_append, h.length_patched]
        omega
      · show c.patched ((f, v) :: patches) ++ patchedBytes ((f, v) :: patches) cs = _
        rw [new, Chunk.patched_of_ne hc]
        simp only [List.append_assoc]

/-! ## Requests -/

/-- A step is refused exactly when `bad` holds, and then leaves the image as it is. -/
def Build.RefusedIff {α : Type} (x : Build α) (image : Image) (bad : Prop) : Prop :=
  (bad → ∃ e, x image = .error (.rejected e) image) ∧ (¬ bad → ∃ a image', x image = .ok a image')

theorem refusedIff_emit (image : Image) (chunk : List UInt8) :
    (emit chunk).RefusedIff image (image.capacity < image.size + chunk.length) :=
  ⟨fun full => ⟨_, emit_of_not_fits (Nat.not_le.2 full)⟩, fun fits => ⟨(), _, emit_of_fits (Nat.not_lt.1 fits)⟩⟩

theorem refusedIff_emitFixup (image : Image) {chunk : List UInt8} {width : Width} (long : width.size ≤ chunk.length) :
    (emitFixup chunk width).RefusedIff image (image.capacity < image.size + chunk.length) :=
  ⟨fun full => ⟨_, emitFixup_of_not_fits long (Nat.not_le.2 full)⟩,
    fun fits => ⟨_, _, emitFixup_of_fits long (Nat.not_lt.1 fits)⟩⟩

theorem of_create {base : UInt16} {limit : Nat} {image : Image} (h : create base limit = .ok image) :
    base.toNat + limit ≤ segmentSize ∧ image = ⟨#[], base, limit⟩ := by
  unfold create at h
  split at h
  · cases h
  · split at h
    · cases h
    · rename_i layout
      cases h
      exact ⟨Nat.not_lt.1 layout, rfl⟩

/-- An address of an image inside one segment does not wrap round. -/
theorem toNat_addressOf {image : Image} (layout : image.loadBase.toNat + image.capacity ≤ segmentSize) {pos : Nat}
    (h : pos < image.capacity) : (image.addressOf pos).toNat = image.loadBase.toNat + pos := by
  rw [segmentSize] at layout
  rw [addressOf, UInt16.toNat_add, UInt16.toNat_ofNat']
  omega

namespace Session

variable {base : UInt16} {limit : Nat} {s : Session}

/-- What every request keeps. -/
structure Kept (base : UInt16) (limit : Nat) (s : Session) : Prop where
  loadBase : s.image.loadBase = base
  capacity : s.image.capacity = limit
  room : s.image.size ≤ limit
  laid : Laid 0 s.chunks
  returned : ∀ p ∈ s.patches, p.1 ∈ fixups s.chunks
  bytes : s.image.bytes.toList = patchedBytes s.patches s.chunks

theorem Kept.start (base : UInt16) (limit : Nat) : Kept base limit { image := ⟨#[], base, limit⟩ } :=
  ⟨rfl, rfl, Nat.zero_le _, trivial, fun _ h => absurd h List.not_mem_nil, rfl⟩

namespace Kept

theorem size_eq (h : s.Kept base limit) : s.image.size = (s.chunks.flatMap Chunk.bytes).length := by
  rw [Image.size, ← Array.length_toList, h.bytes, h.laid.length_patchedBytes]

/-- Placeholders that were returned lie in the image. -/
theorem inside (h : s.Kept base limit) (hf : f ∈ fixups s.chunks) : f.pos + f.width.size ≤ s.image.size := by
  have := (h.laid.bounds hf).2
  rw [h.size_eq]
  omega

/-- One more chunk. Its placeholder is new, so nothing has been put in its place. -/
theorem append (h : s.Kept base limit) (fits : s.image.size + c.bytes.length ≤ limit)
    (ends : ∀ fixup, c.fixup? = some fixup →
      fixup.width.size ≤ c.bytes.length ∧ fixup.pos + fixup.width.size = s.image.size + c.bytes.length) :
    Kept base limit
      { s with image := { s.image with bytes := s.image.bytes ++ c.bytes }, chunks := s.chunks ++ [c] } := by
  have plain : c.patched s.patches = c.bytes := by
    unfold Chunk.patched
    split
    · rfl
    · rename_i fixup hc
      have new : s.patches.lookup fixup = none := by
        rw [List.lookup_eq_none_iff]
        intro p hp
        refine bne_iff_ne.2 fun e => ?_
        have old := h.inside (h.returned p hp)
        have := ends fixup hc
        have := fixup.width.size_pos
        rw [← e] at old
        omega
      rw [new]
  refine ⟨h.loadBase, h.capacity, ?_, ?_, fun p hp => ?_, ?_⟩
  · rw [Image.size_append]
    exact fits
  · exact h.laid.concat (by rwa [← h.size_eq, Nat.zero_add])
  · rw [fixups, List.filterMap_append]
    exact List.mem_append_left _ (h.returned p hp)
  · rw [Array.toList_appendList, h.bytes, patchedBytes, patchedBytes, List.flatMap_append,
      List.flatMap_singleton, plain]

/-- A placeholder that was returned can be patched. -/
theorem patch (h : s.Kept base limit) (hf : f ∈ fixups s.chunks) (v : UInt16) :
    ∃ image, Image.patch f v s.image = .ok () image ∧
      Kept base limit { s with image, patches := (f, v) :: s.patches } := by
  refine ⟨_, if_pos (h.inside hf), h.loadBase, h.capacity, ?_, h.laid, ?_, ?_⟩
  · rw [Image.size, size_overwrite]
    exact h.room
  · exact List.forall_mem_cons.2 ⟨hf, h.returned⟩
  · obtain ⟨before, old, after, now, pos, hold, new⟩ := h.laid.patch hf v s.patches
    have whole : s.image.bytes = (#[] : Array UInt8) ++ (before ++ old ++ after) := by
      apply Array.ext'
      rw [h.bytes, now, Array.toList_appendList]
      rfl
    have changed := overwrite_middle #[] before old (f.patchBytes v) after ((f.length_patchBytes v).trans hold.symm)
    show (overwrite s.image.bytes f.pos (f.patchBytes v)).toList = _
    rw [new, whole, ← pos]
    exact (congrArg Array.toList changed).trans Array.toList_appendList

/-- The image is told by the record. -/
theorem image_eq {t : Session} (h : s.Kept base limit) (h' : t.Kept base limit)
    (same : patchedBytes s.patches s.chunks = patchedBytes t.patches t.chunks) : s.image = t.image := by
  have bytes : s.image.bytes = t.image.bytes := Array.ext' (by rw [h.bytes, h'.bytes, same])
  have loadBase := h.loadBase.trans h'.loadBase.symm
  have capacity := h.capacity.trans h'.capacity.symm
  cases hs : s.image
  cases ht : t.image
  simp_all

/-- Patches of different placeholders commute. -/
theorem patch_comm (h : s.Kept base limit) (hf : f ∈ fixups s.chunks) (hg : g ∈ fixups s.chunks) (ne : f ≠ g)
    (v w : UInt16) : ∃ image, (do Image.patch f v; Image.patch g w : Build Unit) s.image = .ok () image ∧
      (do Image.patch g w; Image.patch f v : Build Unit) s.image = .ok () image := by
  obtain ⟨i₁, hi₁, k₁⟩ := h.patch hf v
  obtain ⟨i₂, hi₂, k₂⟩ := k₁.patch hg w
  obtain ⟨j₁, hj₁, l₁⟩ := h.patch hg w
  obtain ⟨j₂, hj₂, l₂⟩ := l₁.patch hf v
  obtain rfl : i₂ = j₂ := k₂.image_eq l₂ (patchedBytes_swap ne.symm)
  refine ⟨i₂, ?_, ?_⟩
  · simp only [bind, EStateM.bind, hi₁]
    exact hi₂
  · simp only [bind, EStateM.bind, hj₁]
    exact hj₂

/-- What one request keeps. -/
theorem step (h : s.Kept base limit) (r : Request) : Kept base limit (s.step r) := by
  cases r with
  | emit chunk =>
    by_cases fits : s.image.size + chunk.length ≤ s.image.capacity
    · simp only [Session.step, emit_of_fits fits]
      exact h.append (c := ⟨chunk, none⟩) (h.capacity ▸ fits) fun _ hc => by cases hc
    · simp only [Session.step, emit_of_not_fits fits]
      exact h
  | emitFixup chunk width long =>
    by_cases fits : s.image.size + chunk.length ≤ s.image.capacity
    · simp only [Session.step, emitFixup_of_fits long fits]
      refine h.append (c := ⟨chunk, some _⟩) (h.capacity ▸ fits) fun fixup hc => ?_
      cases hc
      exact ⟨long, Nat.sub_add_cancel (Nat.le_trans long (Nat.le_add_left _ _))⟩
    · simp only [Session.step, emitFixup_of_not_fits long fits]
      exact h
  | patch fixup value =>
    by_cases hf : fixup ∈ fixups s.chunks
    · obtain ⟨image, hp, kept⟩ := h.patch hf value
      simp only [Session.step, if_pos hf, hp]
      exact kept
    · simp only [Session.step, if_neg hf]
      exact h

/-- What any number of requests keep. -/
theorem run (h : s.Kept base limit) (rs : List Request) : Kept base limit (s.run rs) := by
  induction rs generalizing s with
  | nil => exact h
  | cons r rs ih => exact ih (h.step r)

end Kept

/-- What was appended stays in the record. -/
theorem chunks_step (s : Session) (r : Request) : s.chunks <+: (s.step r).chunks := by
  cases r with
  | emit chunk =>
    rw [step]
    split
    · exact List.prefix_append _ _
    · exact List.prefix_refl _
  | emitFixup chunk width _ =>
    rw [step]
    split
    · exact List.prefix_append _ _
    · exact List.prefix_refl _
  | patch fixup value =>
    rw [step]
    split
    · split <;> exact List.prefix_refl _
    · exact List.prefix_refl _

theorem chunks_run (s : Session) (rs : List Request) : s.chunks <+: (s.run rs).chunks := by
  induction rs generalizing s with
  | nil => exact List.prefix_refl _
  | cons r rs ih => exact (s.chunks_step r).trans (ih _)

/-- A placeholder that was returned is in the image for ever. -/
theorem Kept.inside_run (h : s.Kept base limit) (hf : f ∈ fixups s.chunks) (rs : List Request) :
    f.pos + f.width.size ≤ (s.run rs).image.size := by
  refine (h.run rs).inside ?_
  obtain ⟨more, e⟩ := s.chunks_run rs
  rw [← e, fixups, List.filterMap_append]
  exact List.mem_append_left _ hf

/-- At any time of a session the image lies in one segment and within its capacity, an append is refused
    exactly when there is no room for it, and the bytes are those of the chunks with the latest value in
    each placeholder that was patched. So placeholders stay in the image and apart, patches of different
    ones commute, and addresses do not wrap round. -/
theorem record_tells_image {base : UInt16} {limit : Nat} {image : Image} (created : create base limit = .ok image)
    (requests : List Request) :
    let s := Session.run { image } requests
    (base.toNat + limit ≤ segmentSize ∧ s.image.loadBase = base ∧ s.image.capacity = limit ∧
        s.image.size ≤ limit) ∧
      (∀ chunk, (emit chunk).RefusedIff s.image (limit < s.image.size + chunk.length)) ∧
      (∀ chunk width, width.size ≤ chunk.length →
        (emitFixup chunk width).RefusedIff s.image (limit < s.image.size + chunk.length)) ∧
      s.image.bytes.toList = patchedBytes s.patches s.chunks ∧
      (∀ f ∈ fixups s.chunks, (∀ more : List Request, f.pos + f.width.size ≤ (s.run more).image.size) ∧
        ∀ v, ∃ image', patch f v s.image = .ok () image') ∧
      ((fixups s.chunks).Pairwise fun f g => f.pos + f.width.size ≤ g.pos) ∧
      (∀ f ∈ fixups s.chunks, ∀ g ∈ fixups s.chunks, f ≠ g → ∀ v w, ∃ image',
        (do patch f v; patch g w : Build Unit) s.image = .ok () image' ∧
          (do patch g w; patch f v : Build Unit) s.image = .ok () image') ∧
      ∀ pos < limit, (s.image.addressOf pos).toNat = base.toNat + pos := by
  intro s
  obtain ⟨layout, rfl⟩ := of_create created
  have kept : Kept base limit s := (Kept.start base limit).run requests
  refine ⟨⟨layout, kept.loadBase, kept.capacity, kept.room⟩, fun chunk => ?_, fun chunk width long => ?_, kept.bytes,
    fun f hf => ⟨kept.inside_run hf, fun v => ?_⟩, kept.laid.apart,
    fun f hf g hg ne v w => kept.patch_comm hf hg ne v w, fun pos hp => ?_⟩
  · rw [← kept.capacity]
    exact refusedIff_emit s.image chunk
  · rw [← kept.capacity]
    exact refusedIff_emitFixup s.image long
  · obtain ⟨image', hp, -⟩ := kept.patch hf v
    exact ⟨image', hp⟩
  · rw [← kept.loadBase]
    refine toNat_addressOf ?_ (kept.capacity ▸ hp)
    rw [kept.loadBase, kept.capacity]
    exact layout

/-- A word and a byte are left open, a chunk is refused in between, and the word is patched twice. -/
theorem record_tells_patched_twice :
    let word : Fixup := ⟨2, .word⟩
    let byte : Fixup := ⟨5, .byte⟩
    let chunk : List UInt8 := [1, 2, 3]
    let requests : List Request :=
      [.emit [0xaa], .emitFixup [0xb8, 0, 0] .word (by decide), .patch word 0x1234,
        .emitFixup [0x74, 0] .byte (by decide), .emit chunk, .patch byte 0x142, .patch word 0xbeef]
    create 0x100 8 = .ok ⟨#[], 0x100, 8⟩ ∧ ∃ s, s = Session.run { image := ⟨#[], 0x100, 8⟩ } requests ∧
      fixups s.chunks = [word, byte] ∧
      s.image.bytes.toList = patchedBytes s.patches s.chunks ∧
      patchedBytes s.patches s.chunks = [0xaa, 0xb8, 0xef, 0xbe, 0x74, 0x42] ∧
      (emit chunk).RefusedIff s.image (8 < s.image.size + chunk.length) ∧
      ∃ image', (do patch word 1; patch byte 2 : Build Unit) s.image = .ok () image' ∧
        (do patch byte 2; patch word 1 : Build Unit) s.image = .ok () image' := by
  intro word byte chunk requests
  have created : create 0x100 8 = .ok ⟨#[], 0x100, 8⟩ := by decide +kernel
  obtain ⟨-, refused, -, bytes, -, -, commute, -⟩ := record_tells_image created requests
  have returned : fixups (Session.run { image := ⟨#[], 0x100, 8⟩ } requests).chunks = [word, byte] := by decide +kernel
  refine ⟨created, _, rfl, returned, bytes, by decide +kernel, refused chunk, commute word ?_ byte ?_ (by decide) 1 2⟩
  · rw [returned]
    exact List.mem_cons_self
  · rw [returned]
    exact List.mem_cons_of_mem _ List.mem_cons_self

end Session

end Image

end DotCom
