/-
  DotCom.Proofs.Lowering.Statements — lowering statements appends exactly their code
  (`Stmt.emits`, `IfChain.emits`, `emits_stmts`). The branches of an `if` are lowered with zero
  for the address behind them, which is filled in at the end (`gives_patchAll`).
-/

import DotCom.Proofs.Lowering.Patches

namespace DotCom

/-! ## Totals of frames -/

mutual

theorem Stmt.toNat_allocated (frame : Frame) (st : Stmt)
    (h : frame.allocated.toNat + 2 * st.declared ≤ Frame.maxAllocated) :
    (st.frame frame).allocated.toNat = frame.allocated.toNat + 2 * st.declared := by
  match st with
  | .declare _ name => exact Frame.toNat_allocated_bind name h
  | .expr _ | .ret _ => rfl
  | .cond chain => exact chain.toNat_allocated frame h
  | .loop _ body => exact toNat_allocated_after frame body h

theorem IfChain.toNat_allocated (frame : Frame) (chain : IfChain)
    (h : frame.allocated.toNat + 2 * chain.declared ≤ Frame.maxAllocated) :
    (chain.frame frame).allocated.toNat = frame.allocated.toNat + 2 * chain.declared := by
  match chain with
  | .branch _ body next =>
    simp only [IfChain.declared] at h
    have hb := toNat_allocated_after frame body (by omega)
    have hn := next.toNat_allocated (frameAfter frame body) (by omega)
    simp only [IfChain.frame, IfChain.declared]
    omega
  | .otherwise body => exact toNat_allocated_after frame body h
  | .done => rfl

theorem toNat_allocated_after (frame : Frame) (ss : List Stmt)
    (h : frame.allocated.toNat + 2 * declaredIn ss ≤ Frame.maxAllocated) :
    (frameAfter frame ss).allocated.toNat = frame.allocated.toNat + 2 * declaredIn ss := by
  match ss with
  | [] => rfl
  | st :: ss =>
    simp only [declaredIn] at h
    have hs := st.toNat_allocated frame (by omega)
    have hr := toNat_allocated_after (st.frame frame) ss (by omega)
    simp only [frameAfter, declaredIn]
    omega

end

mutual

theorem Stmt.sound_frame (frame : Frame) (st : Stmt) (hf : frame.Sound)
    (h : frame.allocated.toNat + 2 * st.declared ≤ Frame.maxAllocated) : (st.frame frame).Sound := by
  match st with
  | .declare _ _ => exact hf.bind h
  | .expr _ | .ret _ => exact hf
  | .cond chain => exact chain.sound_frame frame hf h
  | .loop _ body => exact sound_after frame body hf h

theorem IfChain.sound_frame (frame : Frame) (chain : IfChain) (hf : frame.Sound)
    (h : frame.allocated.toNat + 2 * chain.declared ≤ Frame.maxAllocated) : (chain.frame frame).Sound := by
  match chain with
  | .branch _ body next =>
    simp only [IfChain.declared] at h
    have hb := toNat_allocated_after frame body (by omega)
    exact next.sound_frame _ (sound_after frame body hf (by omega)) (by omega)
  | .otherwise body => exact sound_after frame body hf h
  | .done => exact hf

theorem sound_after (frame : Frame) (ss : List Stmt) (hf : frame.Sound)
    (h : frame.allocated.toNat + 2 * declaredIn ss ≤ Frame.maxAllocated) : (frameAfter frame ss).Sound := by
  match ss with
  | [] => exact hf
  | st :: ss =>
    simp only [declaredIn] at h
    have hs := st.toNat_allocated frame (by omega)
    exact sound_after _ ss (st.sound_frame frame hf (by omega)) (by omega)

end

/-! ## Single steps -/

variable {s : Generator} {frame : Frame} {rest : Frames}

theorem Ready.enter (h : Ready s frame rest) {bs : List UInt8} {frame' : Frame} (hs : frame'.Sound)
    (hf : s.Fits bs.length) :
    Ready (s.extend bs (frame' :: rest)) frame' rest where
  frames := rfl
  sound := hs
  room := s.fits_extend hf
  segment := h.segment

theorem Ty.size?_eq (ty : Ty) : ty.size? = if ty.isInteger ∨ ty.isPointer then some 2 else none := by
  obtain ⟨base, depth⟩ := ty
  by_cases hd : depth = 0
  · subst hd
    cases base <;> rfl
  · have hp : (⟨base, depth⟩ : Ty).isPointer = true := by
      simp only [Ty.isPointer, decide_eq_true_eq]
      exact UInt32.pos_iff_ne_zero.2 hd
    simp [Ty.size?, hp]

namespace Gen

theorem emits_epilogue (h : Ready s frame rest) :
    Emits epilogue s True () (encodeAll (epilogueInstrs frame)) s.frames := by
  refine Emits.after (Gives.frame h.frames) ?_
  refine Emits.of ((Emits.instr s _).seq fun _ _ => (Emits.instr _ _).seq fun _ _ => Emits.instr _ _) ?_ ?_
  · simp
  · simp [epilogueInstrs]

/-- A name that has no slot gets one, if there is room. -/
theorem emits_slot (h : Ready s frame rest) {name : String} (new : ¬ frame.contains name) :
    Emits (onFrames (Frames.onTop (Frame.declare name 2))) s (frame.allocated.toNat + 2 ≤ Frame.maxAllocated)
      (frame.allocated + 2) [] (frame.bind name :: rest) := by
  intro events
  obtain ⟨image, functions, frames, old⟩ := s
  have hfr : frames = frame :: rest := h.frames
  subst hfr
  have room := h.room
  have hd := Frame.declare_of_not_contains new 2
  simp only [List.length_nil, room, and_true]
  by_cases hb : frame.allocated.toNat + 2 ≤ Frame.maxAllocated
  · refine ⟨fun _ => ⟨events, ?_⟩, fun hn => absurd hb hn⟩
    have hr : Frame.reserve name 2 frame = .ok (frame.allocated + 2) (frame.bind name) := if_pos hb
    simp only [onFrames, Frames.onTop, hd, hr, Generator.extend, Array.appendList_nil]
  · refine ⟨fun hy => absurd hy hb, fun _ => ?_⟩
    have hr : Frame.reserve name 2 frame = .error (.rejected (.frameTooLarge frame.function)) frame := if_neg hb
    simp only [onFrames, Frames.onTop, hd, hr]
    exact ⟨_, _, rfl⟩

theorem emits_declare (h : Ready s frame rest) (ty : Ty) (name : String) :
    Emits (declare ty name) s
      (((ty.isInteger ∨ ty.isPointer) ∧ ¬ frame.contains name) ∧ frame.allocated.toNat + 2 ≤ Frame.maxAllocated) ()
      (Instr.subImm .sp 2).encode (frame.bind name :: rest) := by
  refine Emits.after (Gives.frame h.frames) ?_
  by_cases hc : frame.contains name
  · have he : frame.ensureUndeclared name = .error (.rejected (.redeclaration name frame.function)) := if_pos hc
    exact (Emits.refused (a := ()) (t := s) (Gives.attempt_error he)).iff (iff_of_false id fun hw => hw.1.2 hc)
  · have he : frame.ensureUndeclared name = .ok () := if_neg hc
    refine Emits.after (Gives.attempt he) ?_
    rw [Ty.size?_eq]
    by_cases ht : ty.isInteger ∨ ty.isPointer
    · rw [if_pos ht]
      refine Emits.of ((emits_slot h hc).seq fun _ _ => Emits.instr _ _) ?_ (List.nil_append _)
      exact ⟨fun hb => ⟨⟨ht, hc⟩, hb.1⟩, fun hw => ⟨hw.2, trivial⟩⟩
    · rw [if_neg ht]
      exact (Emits.reject _).iff (iff_of_false id fun hw => ht hw.1.1)

/-- The jump over a body gets its distance, if a byte holds it. -/
theorem gives_closeBody (s : Generator) {fr : Frames} (hfr : fr ≠ []) (before : List UInt8) {after : List UInt8}
    {size : Nat} (hsize : after.length = size) :
    Gives (closeBody ⟨s.image.size + before.length, .byte⟩ (s.image.size + before.length + 1))
      (s.extend (before ++ [0] ++ after) fr) (size ≤ 127) () (s.extend (before ++ [UInt8.ofNat size] ++ after) fr) := by
  have total : (s.extend (before ++ [0] ++ after) fr).image.size = s.image.size + before.length + 1 + size := by
    simp only [Generator.size_extend, List.length_append, List.length_singleton, hsize]
    omega
  have since : Gives (sizeSince (s.image.size + before.length + 1)) (s.extend (before ++ [0] ++ after) fr) True size
      (s.extend (before ++ [0] ++ after) fr) := by
    refine Gives.after (Gives.position _) ?_
    rw [total, if_neg (by omega), Nat.add_sub_cancel_left]
    exact Gives.pure _ _
  refine Gives.after since ?_
  by_cases hl : size ≤ 127
  · rw [if_pos hl]
    have hb : Fixup.patchBytes ⟨s.image.size + before.length, .byte⟩ (UInt16.ofNat size) = [UInt8.ofNat size] := by
      show [(UInt16.ofNat size).toUInt8] = _
      rw [UInt16.toUInt8_ofNat']
    have hp := gives_patch s fr ⟨s.image.size + before.length, .byte⟩ (UInt16.ofNat size) before [0] after rfl
      (by rw [hb]; rfl) rfl
    rw [hb] at hp
    exact hp.iff (iff_of_true trivial hl)
  · rw [if_neg hl]
    obtain ⟨top, more, rfl⟩ := List.exists_cons_of_ne_nil hfr
    exact Gives.after (Gives.frame rfl) ((Gives.reject _ _ _ _).iff (iff_of_false id hl))

end Gen

/-! ## Branches -/

open Gen

/-- What stands in a branch before the distance of the jump over its body. -/
def branchHead (link : Link) (frame : Frame) (pos : Nat) (guard : Expr) : List UInt8 :=
  guard.code link frame pos ++ (Instr.test .ax .ax).encode ++ [Cond.equal.opcode]

/-- What that jump skips: the body and the jump to `exit`. -/
def branchBody (link : Link) (frame : Frame) (pos : Nat) (body : List Stmt) (exit : UInt16) : List UInt8 :=
  stmtsCode link frame pos body ++ (Instr.movImm .ax exit).encode ++ (Instr.jmpReg .ax).encode

/-- The code of one branch, which is left for the address `exit`. -/
def branchCode (link : Link) (frame : Frame) (pos : Nat) (guard : Expr) (body : List Stmt) (exit : UInt16) :
    List UInt8 :=
  branchHead link frame pos guard ++ [UInt8.ofNat (bodySize frame body)] ++
    branchBody link frame (pos + guard.size frame + 4) body exit

theorem length_branchHead (link : Link) (frame : Frame) (pos : Nat) (guard : Expr) :
    (branchHead link frame pos guard).length = guard.size frame + 3 := by
  simp only [branchHead, List.length_append, Expr.length_code, Instr.length_encode, Instr.size_test,
    List.length_singleton]

theorem length_branchBody (link : Link) (frame : Frame) (pos : Nat) (body : List Stmt) (exit : UInt16) :
    (branchBody link frame pos body exit).length = bodySize frame body := by
  simp only [branchBody, List.length_append, length_stmtsCode, Instr.length_encode, bodySize, Instr.size_movImm,
    Instr.size_jmpReg]

theorem length_branchCode (link : Link) (frame : Frame) (pos : Nat) (guard : Expr) (body : List Stmt) (exit : UInt16) :
    (branchCode link frame pos guard body exit).length = guard.size frame + 4 + bodySize frame body := by
  simp only [branchCode, List.length_append, length_branchHead, length_branchBody, List.length_singleton]

theorem IfChain.code_branch (link : Link) (frame : Frame) (pos : Nat) (exit : UInt16) (guard : Expr) (body : List Stmt)
    (next : IfChain) :
    (IfChain.branch guard body next).code link frame pos exit = branchCode link frame pos guard body exit ++
      next.code link (frameAfter frame body) (pos + guard.size frame + 4 + bodySize frame body) exit := by
  simp only [IfChain.code, branchCode, branchHead, branchBody, List.append_assoc]
  rfl

/-- Where the placeholder of the address behind all branches stands in a branch. -/
def exitFixup (frame : Frame) (pos : Nat) (guard : Expr) (body : List Stmt) : Fixup :=
  ⟨pos + guard.size frame + 4 + stmtsSize frame body + 1, .word⟩

def IfChain.exits (frame : Frame) (pos : Nat) : IfChain → List Fixup
  | .branch guard body next =>
    exitFixup frame pos guard body ::
      next.exits (frameAfter frame body) (pos + guard.size frame + 4 + bodySize frame body)
  | .otherwise _ | .done => []

/-- A branch, before the jump over its body knows how far it goes. -/
def openBranch (guard : Expr) (body : List Stmt) : Gen (Fixup × Nat × Fixup) := do
  guard.lower
  emit (.test .ax .ax)
  let skip ← emitFixup (.jcc .equal 0) .byte
  let start ← position
  lowerStmts body
  let exit ← emitFixup (.movImm .ax 0) .word
  emit (.jmpReg .ax)
  return (skip, start, exit)

/-- A branch; the placeholder is that of the address behind all branches. -/
def lowerBranch (guard : Expr) (body : List Stmt) : Gen Fixup := do
  let (skip, start, exit) ← openBranch guard body
  closeBody skip start
  return exit

theorem IfChain.lower_branch (guard : Expr) (body : List Stmt) (next : IfChain) :
    (IfChain.branch guard body next).lower = (do
      let exit ← lowerBranch guard body
      let exits ← next.lower
      return exit :: exits) := by
  rw [IfChain.lower, lowerBranch, openBranch]
  simp only [bind_assoc, pure_bind]

variable {guard : Expr} {body : List Stmt}

/-- What `emits_stmts` says of the body of a branch. -/
def BodyEmits (frame : Frame) (rest : Frames) (body : List Stmt) : Prop :=
  ∀ s, Ready s frame rest → Emits (lowerStmts body) s
    (stmtsWellFormed frame s.known body ∧ frame.allocated.toNat + 2 * declaredIn body ≤ Frame.maxAllocated) ()
    (stmtsCode s.link frame s.image.size body) (frameAfter frame body :: rest)

theorem emits_openBranch (h : Ready s frame rest) (hb : BodyEmits frame rest body) :
    Emits (openBranch guard body) s
      (guard.WellFormed frame s.known ∧ stmtsWellFormed frame s.known body ∧
        frame.allocated.toNat + 2 * declaredIn body ≤ Frame.maxAllocated)
      (⟨s.image.size + guard.size frame + 3, .byte⟩, s.image.size + guard.size frame + 4,
        exitFixup frame s.image.size guard body)
      (branchHead s.link frame s.image.size guard ++ [0] ++
        branchBody s.link frame (s.image.size + guard.size frame + 4) body 0)
      (frameAfter frame body :: rest) := by
  refine Emits.gives (Emits.of ((guard.emits h).seq fun _ h1 => (Emits.instr _ _).seq fun _ h2 =>
    (emits_emitFixup _ _ .byte (by decide)).seq fun _ h3 => Emits.after (Gives.position _) ((hb _ ?_).seq fun hB h4 =>
      (emits_emitFixup _ _ .word (by decide)).seq fun _ h5 => (Emits.instr _ _).seq fun _ h6 =>
        Emits.pure _ (Generator.fits_extend _ h6))) ?_ ?_) ?_
  · exact ((h.extend h1).extend h2).extend h3
  · simp
  · simp only [branchHead, branchBody, Generator.extend_link, Generator.size_extend, Expr.length_code,
      Instr.length_encode, Instr.size_test, Instr.size_jcc, List.append_assoc, Nat.add_assoc, List.append_nil]
    rfl
  · simp only [exitFixup, Generator.size_extend, Expr.length_code, length_stmtsCode, Instr.length_encode,
      Instr.size_test, Instr.size_jcc, Instr.size_movImm, Width.size, Prod.mk.injEq, Fixup.mk.injEq, and_true]
    exact ⟨by omega, trivial, by omega⟩

/-- A branch appends its code, with zero for the address behind all branches. -/
theorem emits_branch (h : Ready s frame rest) (hb : BodyEmits frame rest body) :
    Emits (lowerBranch guard body) s
      ((guard.WellFormed frame s.known ∧ stmtsWellFormed frame s.known body ∧
        frame.allocated.toNat + 2 * declaredIn body ≤ Frame.maxAllocated) ∧ bodySize frame body ≤ 127)
      (exitFixup frame s.image.size guard body) (branchCode s.link frame s.image.size guard body 0)
      (frameAfter frame body :: rest) := by
  have close := gives_closeBody s (List.cons_ne_nil (frameAfter frame body) rest)
    (branchHead s.link frame s.image.size guard)
    (length_branchBody s.link frame (s.image.size + guard.size frame + 4) body 0)
  rw [length_branchHead, ← Nat.add_assoc] at close
  refine Emits.fix (emits_openBranch h hb) (fun _ _ => ?_) ?_
  · exact Gives.iff (Gives.bind (Q := True) close fun _ => Gives.pure _ _) (by rw [and_true])
  · simp only [branchCode, List.length_append, List.length_singleton]

/-! ## Exits -/

/-- What stands in a branch before the address that it is left for. -/
def branchFront (link : Link) (frame : Frame) (pos : Nat) (guard : Expr) (body : List Stmt) : List UInt8 :=
  branchHead link frame pos guard ++ [UInt8.ofNat (bodySize frame body)] ++
    stmtsCode link frame (pos + guard.size frame + 4) body ++ [0xb8]

theorem branchCode_eq (link : Link) (frame : Frame) (pos : Nat) (guard : Expr) (body : List Stmt) (exit : UInt16) :
    branchCode link frame pos guard body exit =
      branchFront link frame pos guard body ++ Word.bytes exit ++ (Instr.jmpReg .ax).encode := by
  simp only [branchCode, branchFront, branchBody, List.append_assoc]
  rfl

theorem length_branchFront (link : Link) (frame : Frame) (pos : Nat) (guard : Expr) (body : List Stmt) :
    (branchFront link frame pos guard body).length = guard.size frame + 4 + stmtsSize frame body + 1 := by
  simp only [branchFront, List.length_append, length_branchHead, length_stmtsCode, List.length_singleton]

/-- The address behind all branches goes into each of their placeholders. -/
theorem gives_patchAll (s : Generator) (fr : Frames) (link : Link) (old new : UInt16) (chain : IfChain) (frame : Frame)
    (pos : Nat) (before : List UInt8) (hp : pos = s.image.size + before.length) (after : List UInt8) :
    Gives (patchAll new (chain.exits frame pos))
      (s.extend (before ++ chain.code link frame pos old ++ after) fr) True ()
      (s.extend (before ++ chain.code link frame pos new ++ after) fr) := by
  match chain with
  | .otherwise _ | .done => exact Gives.pure _ _
  | .branch guard body next =>
    have first := gives_patch s fr (exitFixup frame pos guard body) new
      (before ++ branchFront link frame pos guard body)
      (Word.bytes old) ((Instr.jmpReg .ax).encode ++
        next.code link (frameAfter frame body) (pos + guard.size frame + 4 + bodySize frame body) old ++ after)
      (by simp only [exitFixup, hp, List.length_append, length_branchFront]; omega) rfl rfl
    have others := gives_patchAll s fr link old new next (frameAfter frame body)
      (pos + guard.size frame + 4 + bodySize frame body) (before ++ branchCode link frame pos guard body new)
      (by simp only [hp, List.length_append, length_branchCode]; omega) after
    have start : before ++ (IfChain.branch guard body next).code link frame pos old ++ after =
        before ++ branchFront link frame pos guard body ++ Word.bytes old ++ ((Instr.jmpReg .ax).encode ++
          next.code link (frameAfter frame body) (pos + guard.size frame + 4 + bodySize frame body) old ++ after) := by
      simp only [IfChain.code_branch, branchCode_eq, List.append_assoc]
    have middle : before ++ branchFront link frame pos guard body ++ Word.bytes new ++ ((Instr.jmpReg .ax).encode ++
          next.code link (frameAfter frame body) (pos + guard.size frame + 4 + bodySize frame body) old ++ after) =
        before ++ branchCode link frame pos guard body new ++
          next.code link (frameAfter frame body) (pos + guard.size frame + 4 + bodySize frame body) old ++ after := by
      simp only [branchCode_eq, List.append_assoc]
    have stop : before ++ (IfChain.branch guard body next).code link frame pos new ++ after =
        before ++ branchCode link frame pos guard body new ++
          next.code link (frameAfter frame body) (pos + guard.size frame + 4 + bodySize frame body) new ++ after := by
      simp only [IfChain.code_branch, List.append_assoc]
    have bytes : (exitFixup frame pos guard body).patchBytes new = Word.bytes new := rfl
    rw [bytes, middle] at first
    rw [start, stop]
    exact Gives.after first others

/-! ## Statements -/

mutual

/-- Lowering a statement appends its code if it is well formed and its declarations have room. -/
theorem Stmt.emits (st : Stmt) {s : Generator} {frame : Frame} {rest : Frames} (h : Ready s frame rest) :
    Emits st.lower s (st.WellFormed frame s.known ∧ frame.allocated.toNat + 2 * st.declared ≤ Frame.maxAllocated) ()
      (st.code s.link frame s.image.size) (st.frame frame :: rest) := by
  match st with
  | .declare ty name => exact emits_declare h ty name
  | .expr e =>
    show Emits e.lower s _ () _ (frame :: rest)
    rw [← h.frames]
    exact (e.emits h).iff (and_iff_left h.sound.small).symm
  | .ret e =>
    show Emits (do e.lower; epilogue) s _ () _ (frame :: rest)
    rw [← h.frames]
    exact ((e.emits h).seq fun _ h1 => emits_epilogue (h.extend h1)).iff
      (and_congr_right fun _ => iff_of_true trivial h.sound.small)
  | .cond chain =>
    refine (Emits.fix (Q := True) (chain.emits h) (fun _ _ => Gives.after (Gives.address _) ?_) ?_).iff
      (and_iff_left trivial)
    · have exits := gives_patchAll s (chain.frame frame :: rest) s.link 0
        (s.link.addr (s.image.size + chain.size frame)) chain
        frame s.image.size [] rfl []
      simp only [List.nil_append, List.append_nil] at exits
      rw [Generator.size_extend, IfChain.length_code]
      exact exits
    · rw [Stmt.code, IfChain.length_code, IfChain.length_code]
  | .loop _ _ => exact Emits.after (Gives.frame h.frames) ((Emits.reject _).iff (iff_of_false id fun hw => hw.1))

theorem IfChain.emits (chain : IfChain) {s : Generator} {frame : Frame} {rest : Frames} (h : Ready s frame rest) :
    Emits chain.lower s
      (chain.WellFormed frame s.known ∧ frame.allocated.toNat + 2 * chain.declared ≤ Frame.maxAllocated)
      (chain.exits frame s.image.size) (chain.code s.link frame s.image.size 0) (chain.frame frame :: rest) := by
  match chain with
  | .branch guard body next =>
    rw [IfChain.lower_branch, IfChain.code_branch]
    refine Emits.gives (Emits.of ((emits_branch h fun s h => emits_stmts body h).seq fun hb h1 =>
      (next.emits (h.enter (sound_after frame body h.sound hb.1.2.2) h1)).seq fun _ h2 =>
        Emits.pure _ (Generator.fits_extend _ h2)) ?_ ?_) ?_
    · simp only [Generator.extend_known, IfChain.WellFormed, IfChain.declared, and_true]
      constructor
      · rintro ⟨⟨⟨hg, hb, ht⟩, hl⟩, hn, ht'⟩
        have := toNat_allocated_after frame body ht
        exact ⟨⟨hg, hb, hl, hn⟩, by omega⟩
      · rintro ⟨⟨hg, hb, hl, hn⟩, ht⟩
        have := toNat_allocated_after frame body (by omega)
        exact ⟨⟨⟨hg, hb, by omega⟩, hl⟩, hn, by omega⟩
    · simp only [Generator.extend_link, Generator.size_extend, length_branchCode, List.append_nil, Nat.add_assoc]
    · simp only [IfChain.exits, Generator.size_extend, length_branchCode, Nat.add_assoc]
  | .otherwise body =>
    rw [IfChain.lower]
    exact Emits.of ((emits_stmts body h).seq fun _ h1 => Emits.pure _ (s.fits_extend h1)) (and_iff_left trivial)
      (List.append_nil _)
  | .done =>
    rw [IfChain.frame, ← h.frames]
    exact (Emits.pure _ h.room).iff (iff_of_true trivial ⟨trivial, h.sound.small⟩)

theorem emits_stmts (ss : List Stmt) {s : Generator} {frame : Frame} {rest : Frames} (h : Ready s frame rest) :
    Emits (lowerStmts ss) s
      (stmtsWellFormed frame s.known ss ∧ frame.allocated.toNat + 2 * declaredIn ss ≤ Frame.maxAllocated) ()
      (stmtsCode s.link frame s.image.size ss) (frameAfter frame ss :: rest) := by
  match ss with
  | [] =>
    rw [frameAfter, ← h.frames]
    exact (Emits.pure _ h.room).iff (iff_of_true trivial ⟨trivial, h.sound.small⟩)
  | st :: ss =>
    rw [lowerStmts]
    refine Emits.of ((st.emits h).seq
      fun hs h1 => emits_stmts ss (h.enter (st.sound_frame frame h.sound hs.2) h1)) ?_ ?_
    · simp only [Generator.extend_known, stmtsWellFormed, declaredIn]
      constructor
      · rintro ⟨⟨hw, hb⟩, hw', hb'⟩
        have := st.toNat_allocated frame hb
        exact ⟨⟨hw, hw'⟩, by omega⟩
      · rintro ⟨⟨hw, hw'⟩, hb⟩
        have := st.toNat_allocated frame (by omega)
        exact ⟨⟨hw, by omega⟩, hw', by omega⟩
    · simp only [stmtsCode, Generator.extend_link, Generator.size_extend, Stmt.length_code]

end

end DotCom
