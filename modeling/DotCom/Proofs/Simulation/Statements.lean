/-
  DotCom.Proofs.Simulation.Statements — the code of statements does what they mean, in functions
  whose declarations are all written directly in the body. There the bytes that a frame counts are
  those between `sp` and `bp`, between any two statements (`Stands`), so an epilogue finds what the
  prologue saved.

  - `Stmt.reaches`, `IfChain.reaches`, `stmts_reach`: code falls through, or has returned already.
-/

import Mathlib.Data.List.Forall2
import DotCom.Proofs.Lowering.Statements
import DotCom.Proofs.Simulation.Expressions

namespace DotCom

/-! ## Flat declarations -/

/-- No declaration in the bodies of a statement. -/
def Stmt.Flat : Stmt → Prop
  | .cond chain => chain.declared = 0
  | .loop _ body => declaredIn body = 0
  | .declare _ _ | .expr _ | .ret _ => True

instance (st : Stmt) : Decidable st.Flat :=
  match st with
  | .cond chain => inferInstanceAs (Decidable (chain.declared = 0))
  | .loop _ body => inferInstanceAs (Decidable (declaredIn body = 0))
  | .declare _ _ | .expr _ | .ret _ => .isTrue trivial

theorem Stmt.flat_of_declared {st : Stmt} (h : st.declared = 0) : st.Flat := by
  cases st with
  | cond chain => exact h
  | loop _ body => exact h
  | declare _ _ | expr _ | ret _ => trivial

theorem flat_of_declaredIn {ss : List Stmt} (h : declaredIn ss = 0) : ∀ st ∈ ss, st.Flat := by
  induction ss with
  | nil => exact fun _ hmem => nomatch hmem
  | cons st ss ih =>
    simp only [declaredIn, Nat.add_eq_zero_iff] at h
    intro st' hmem
    rcases List.mem_cons.1 hmem with rfl | hmem
    · exact Stmt.flat_of_declared h.1
    · exact ih h.2 st' hmem

mutual

/-- Where nothing is declared the frame stays. -/
theorem Stmt.frame_of_declared {frame : Frame} {st : Stmt} (h : st.declared = 0) : st.frame frame = frame := by
  match st with
  | .declare _ _ => exact nomatch h
  | .expr _ | .ret _ => rfl
  | .cond chain => exact IfChain.frame_of_declared h
  | .loop _ body => exact frameAfter_of_declared h

theorem IfChain.frame_of_declared {frame : Frame} {chain : IfChain} (h : chain.declared = 0) :
    chain.frame frame = frame := by
  match chain with
  | .branch _ body next =>
    simp only [IfChain.declared, Nat.add_eq_zero_iff] at h
    rw [IfChain.frame, frameAfter_of_declared h.1, IfChain.frame_of_declared h.2]
  | .otherwise body => exact frameAfter_of_declared h
  | .done => rfl

theorem frameAfter_of_declared {frame : Frame} {ss : List Stmt} (h : declaredIn ss = 0) :
    frameAfter frame ss = frame := by
  match ss with
  | [] => rfl
  | st :: ss =>
    simp only [declaredIn, Nat.add_eq_zero_iff] at h
    rw [frameAfter, Stmt.frame_of_declared h.1, frameAfter_of_declared h.2]

end

variable {P : Placement}

/-! ## Between statements -/

/-- A state between two statements of an activation. The saved `bp` lies at `bp`, the return address
    above it. -/
structure Stands (P : Placement) (frame : Frame) (m : Machine) (s : Activation) : Prop extends Models P frame m s where
  level : m.regs.sp.toNat + frame.allocated.toNat = m.regs.bp.toNat
  ceiling : m.regs.bp.toNat + 4 < 65536

/-- What statements keep of the state they started in: `bp`, and everything from there up. -/
structure Machine.Holding (m m' : Machine) : Prop where
  bp : m'.regs.bp = m.regs.bp
  memory : ∀ a : UInt16, m.regs.bp.toNat ≤ a.toNat → m'.memory.read a = m.memory.read a

theorem Machine.Holding.refl (m : Machine) : m.Holding m := ⟨rfl, fun _ _ => rfl⟩

theorem Machine.Holding.trans {m m' m'' : Machine} (h : m.Holding m') (h' : m'.Holding m'') : m.Holding m'' :=
  ⟨h'.bp.trans h.bp, fun a ha => (h'.memory a (h.bp ▸ ha)).trans (h.memory a ha)⟩

theorem Machine.Holding.readWord {m m' : Machine} (h : m.Holding m') {a : UInt16} (ha : m.regs.bp.toNat ≤ a.toNat)
    (hlt : a.toNat + 1 < 65536) : m'.memory.readWord a = m.memory.readWord a :=
  Memory.readWord_of_kept h.memory ha hlt

/-- The state of a machine that has left an activation through an epilogue. -/
structure Machine.Leaves (P : Placement) (m m' : Machine) : Prop where
  ip : m'.ip = m.memory.readWord (m.regs.bp + 2)
  sp : m'.regs.sp.toNat = m.regs.bp.toNat + 4
  bp : m'.regs.bp = m.memory.readWord m.regs.bp
  memory : ∀ a : UInt16, m.regs.bp.toNat ≤ a.toNat → m'.memory.read a = m.memory.read a
  code : m'.memory.Carries P

theorem Machine.Holding.leaves {m m' m'' : Machine} (h : m.Holding m') (hc : m.regs.bp.toNat + 4 < 65536)
    (h' : m'.Leaves P m'') : m.Leaves P m'' := by
  have two : (m.regs.bp + 2).toNat = m.regs.bp.toNat + 2 :=
    Word.toNat_add rfl (Nat.lt_of_succ_lt (Nat.lt_of_succ_lt hc))
  refine ⟨?_, ?_, ?_, fun a ha => ?_, h'.code⟩
  · rw [h'.ip, h.bp, h.readWord (by omega) (by omega)]
  · rw [h'.sp, h.bp]
  · rw [h'.bp, h.bp, h.readWord (Nat.le_refl _) (by omega)]
  · exact (h'.memory a (h.bp ▸ ha)).trans (h.memory a ha)

/-- How code of statements ends, from `m` on: at `j` in front of the next statement, or out of the
    activation. -/
def Ends (P : Placement) (frame : Frame) (m : Machine) (j : Nat) : Flow → Activation → Machine → Prop
  | .next, s, m' => m'.ip = P.addr j ∧ Stands P frame m' s ∧ m.Holding m'
  | .returned v, s, m' => m.Leaves P m' ∧ m'.Traced P (s.trace.return v) ∧ v.Matches P m'.regs.ax

theorem Ends.after {frame : Frame} {m m' m'' : Machine} {j : Nat} {flow : Flow} {s : Activation} (h : m.Holding m')
    (hc : m.regs.bp.toNat + 4 < 65536) (h' : Ends P frame m' j flow s m'') : Ends P frame m j flow s m'' := by
  cases flow with
  | next => exact ⟨h'.1, h'.2.1, h.trans h'.2.2⟩
  | returned v => exact ⟨h.leaves hc h'.1, h'.2⟩

/-- An expression between two statements. -/
theorem Stands.after {frame : Frame} {m m' : Machine} {s s' : Activation} (h : Stands P frame m s)
    (hm : Models P frame m' s') (hk : Keeps frame 0 m m') : Stands P frame m' s' ∧ m.Holding m' := by
  have hsp : m'.regs.sp.toNat = m.regs.sp.toNat := hk.sp
  have level := h.level
  refine ⟨⟨hm, ?_, ?_⟩, hk.bp, fun a ha => hk.memory a (by omega) (.inr ha)⟩
  · rw [hsp, hk.bp]
    exact h.level
  · rw [hk.bp]
    exact h.ceiling

/-- One more variable. -/
theorem Stands.declare {frame : Frame} {m m' : Machine} {s : Activation} {name : String} (h : Stands P frame m s)
    (hP : P.Sits) (small : frame.allocated.toNat + 2 ≤ Frame.maxAllocated) (room : P.stop ≤ m'.regs.sp.toNat)
    (hsp : m'.regs.sp = m.regs.sp - 2) (hbp : m'.regs.bp = m.regs.bp) (hmemory : m'.memory = m.memory)
    (ho : m'.output = m.output) (hr : m'.returns = m.returns) :
    Stands P (frame.bind name) m' (s.declare name) ∧ m.Holding m' := by
  have hlow := Nat.le_trans hP.stop h.room
  have hsp' : m'.regs.sp.toNat = m.regs.sp.toNat - 2 := hsp ▸ UInt16.toNat_sub_of_le _ _ hlow
  have level := h.level
  have grown := Frame.toNat_allocated_bind name small
  refine ⟨⟨⟨hmemory ▸ h.code, room, ?_, ?_, h.traced.congr ho hr⟩, ?_, ?_⟩, hbp, fun _ _ => hmemory ▸ rfl⟩
  · rw [hbp]
    omega
  · intro other offset v hoffset hv
    rw [Activation.locals_declare] at hv
    rw [Frame.offset?_bind] at hoffset
    by_cases same : other = name
    · rw [if_pos same] at hv
      exact nomatch hv
    · rw [if_neg same] at hv hoffset
      rw [hmemory, hbp]
      exact h.locals hoffset hv
  · rw [hbp]
    omega
  · rw [hbp]
    exact h.ceiling

/-! ## Leaving -/

theorem reaches_epilogue {frame : Frame} {i j : Nat} {m : Machine} {s : Activation} {v : Value} (hs : frame.Sound)
    (hb : P.Block i (epilogueInstrs frame) j) (hm : Stands P frame m s) (hip : m.ip = P.addr i)
    (hv : v.Matches P m.regs.ax) : Reaches P m (Ends P frame m j (.returned v) s) := by
  have hbp : m.regs.sp + frame.frameSize.toUInt16 = m.regs.bp := by
    rw [Frame.frameSize_eq hs, UInt16.toUInt16_toInt16, ← UInt16.toNat_inj, Word.toNat_add hm.level m.regs.bp.toNat_lt]
    exact hm.level
  have four : (m.regs.bp + 2 + 2).toNat = m.regs.bp.toNat + 4 := by
    rw [UInt16.add_assoc]
    exact Word.toNat_add (b := 4) rfl hm.ceiling
  have raised : ∀ ip, { m with ip }.perform m.ip (.arith .add (.reg .sp) (.imm frame.frameSize.toUInt16)) =
      .running
        { m with ip, regs := { m.regs with sp := m.regs.bp }, flags := .ofSum m.regs.sp frame.frameSize.toUInt16 } := by
    intro ip
    rw [← hbp]
    rfl
  refine Reaches.exec hb hm.code hip rfl (raised _) fun hb => ?_
  refine Reaches.exec hb hm.code rfl rfl rfl fun hb => ?_
  refine Reaches.exec hb hm.code rfl rfl rfl fun hb => Reaches.here ?_
  refine ⟨⟨rfl, four, rfl, fun _ _ => rfl, hm.code⟩, ⟨hm.traced.output, ?_⟩, hv⟩
  show List.Forall₂ _ _ (m.returns.push m.regs.ax).toList
  rw [Array.toList_push]
  exact List.rel_append hm.traced.returns (.cons hv .nil)

/-! ## Branches -/

/-- A guard that is zero goes past the branch. -/
theorem reaches_guard {k l : Nat} {rel : Int8} {m : Machine}
    (hb : P.Block k [.test .ax .ax, .jcc .equal rel] (k + 4)) (hrel : (l : Int) = (k + 4 : Nat) + rel.toInt)
    (hm : m.memory.Carries P) (hip : m.ip = P.addr k) :
    Reaches P m fun m' => m.Alike m' ∧ m'.ip = P.addr (if m.regs.ax = 0 then l else k + 4) := by
  have zero : (Flags.ofResult (m.regs.ax &&& m.regs.ax)).zero = (m.regs.ax == 0) := by
    rw [UInt16.and_self]
    rfl
  refine Reaches.exec hb hm hip rfl rfl fun hb => ?_
  refine Reaches.jcc hb hm rfl (fun hc hb => Reaches.here ⟨⟨rfl, rfl, rfl, rfl, rfl⟩, ?_⟩)
    (fun hc hb => Reaches.here ⟨⟨rfl, rfl, rfl, rfl, rfl⟩, ?_⟩)
  · rw [if_pos (beq_iff_eq.1 (zero.symm.trans hc))]
    exact P.addr_add_signExtend hrel
  · rw [if_neg (beq_eq_false_iff_ne.1 (zero.symm.trans hc))]
    exact congrArg P.addr hb.nil

/-- A body that is done jumps to the end of the chain. -/
theorem Ends.reaches_exit {frame : Frame} {m m' : Machine} {l j : Nat} {address : UInt16} {flow : Flow} {s : Activation}
    (h : Ends P frame m l flow s m') (hb : P.Block l [.movImm .ax address, .jmpReg .ax] (l + 5))
    (ha : P.Addresses address j) : Reaches P m' (Ends P frame m j flow s) := by
  cases flow with
  | next =>
    obtain ⟨hip, stands, holding⟩ := h
    refine Reaches.exec hb stands.code hip rfl rfl fun hb => ?_
    refine Reaches.exec hb stands.code rfl rfl rfl fun hb => Reaches.here ?_
    exact ⟨ha.eq_addr, ⟨stands.toModels.alike ⟨rfl, rfl, rfl, rfl, rfl⟩, stands.level, stands.ceiling⟩, holding.bp,
      holding.memory⟩
  | returned v => exact Reaches.here h

/-! ## Running statements -/

section

variable {call : CallMeaning} {known : List String}

mutual

theorem Stmt.reaches (hP : P.Sits) (hc : Realizes P call) {frame : Frame} {st : Stmt} {i j : Nat} {m : Machine}
    {s s' : Activation} {flow : Flow}
    (hat : st.At P frame i j) (hw : st.WellFormed frame known) (flat : st.Flat) (hs : frame.Sound)
    (small : frame.allocated.toNat + 2 * st.declared ≤ Frame.maxAllocated) (hm : Stands P frame m s)
    (hip : m.ip = P.addr i) (hv : st.eval call s = some (flow, s')) :
    Reaches P m (Ends P (st.frame frame) m j flow s') := by
  match st with
  | .declare _ name =>
    cases hv
    refine Reaches.exec hat hm.code hip rfl rfl fun hb => Reaches.above fun room => Reaches.here ?_
    exact ⟨congrArg P.addr hb.nil, hm.declare hP small room rfl rfl rfl rfl rfl⟩
  | .expr e =>
    rw [Stmt.eval, Option.map_eq_some_iff] at hv
    obtain ⟨⟨v, s₁⟩, hv, heq⟩ := hv
    cases heq
    refine (Expr.reaches hP hc hs hat hw hm.toModels hip hv).mono fun m₁ h => ?_
    exact ⟨h.ip, hm.after h.models h.keeps⟩
  | .ret e =>
    obtain ⟨k, he, hb⟩ := hat
    rw [Stmt.eval, Option.map_eq_some_iff] at hv
    obtain ⟨⟨v, s₁⟩, hv, heq⟩ := hv
    cases heq
    refine (Expr.reaches hP hc hs he hw hm.toModels hip hv).bind fun m₁ h => ?_
    obtain ⟨stands, holding⟩ := hm.after h.models h.keeps
    exact (reaches_epilogue hs hb stands h.ip h.value).mono fun m₂ h₂ => Ends.after holding hm.ceiling h₂
  | .cond chain => exact IfChain.reaches hP hc hat hw flat hs hm hip hv
  | .loop _ _ => exact hw.elim

/-- No branch declares anything, so all of them leave the frame as it was. -/
theorem IfChain.reaches (hP : P.Sits) (hc : Realizes P call) {frame : Frame} {chain : IfChain} {i j : Nat}
    {m : Machine} {s s' : Activation} {flow : Flow}
    (hat : chain.At P frame i j j) (hw : chain.WellFormed frame known) (flat : chain.declared = 0) (hs : frame.Sound)
    (hm : Stands P frame m s) (hip : m.ip = P.addr i) (hv : chain.eval call s = some (flow, s')) :
    Reaches P m (Ends P (chain.frame frame) m j flow s') := by
  match chain with
  | .branch guard body next =>
    obtain ⟨k, l, rel, address, hguard, htest, hbody, hexit, hrel, haddress, hnext⟩ := hat
    obtain ⟨hwguard, hwbody, -, hwnext⟩ := hw
    simp only [IfChain.declared, Nat.add_eq_zero_iff] at flat
    rw [frameAfter_of_declared flat.1] at hnext hwnext
    rw [IfChain.frame, frameAfter_of_declared flat.1]
    rw [IfChain.eval] at hv
    split at hv
    · rename_i w s₁ he
      refine (Expr.reaches hP hc hs hguard hwguard hm.toModels hip he).bind fun m₁ h => ?_
      refine (reaches_guard htest (l := l + 5) (by omega) h.models.code h.ip).bind fun m₂ h₂ => ?_
      obtain ⟨alike, hip₂⟩ := h₂
      obtain ⟨stands, holding⟩ := hm.after (h.models.alike alike) (h.keeps.trans alike.keeps)
      rw [show m₁.regs.ax = w from h.value] at hip₂
      by_cases zero : w = 0
      · rw [if_pos zero] at hv hip₂
        exact (IfChain.reaches hP hc hnext hwnext flat.2 hs stands hip₂ hv).mono
          fun m₃ h₃ => Ends.after holding hm.ceiling h₃
      · rw [if_neg zero] at hv hip₂
        have hsmall : frame.allocated.toNat + 2 * declaredIn body ≤ Frame.maxAllocated := by
          rw [flat.1]
          exact hs.small
        refine (stmts_reach hP hc hbody hwbody (flat_of_declaredIn flat.1) hs hsmall stands hip₂ hv).bind
          fun m₃ h₃ => ?_
        rw [frameAfter_of_declared flat.1] at h₃
        rw [IfChain.frame_of_declared flat.2]
        exact (Ends.after holding hm.ceiling h₃).reaches_exit hexit haddress
    · exact nomatch hv
  | .otherwise body =>
    have hsmall : frame.allocated.toNat + 2 * declaredIn body ≤ Frame.maxAllocated := by
      rw [show declaredIn body = 0 from flat]
      exact hs.small
    exact stmts_reach hP hc hat hw (flat_of_declaredIn flat) hs hsmall hm hip hv
  | .done =>
    cases hv
    exact Reaches.here ⟨hip.trans (congrArg P.addr hat), hm, Machine.Holding.refl m⟩

theorem stmts_reach (hP : P.Sits) (hc : Realizes P call) {frame : Frame} {ss : List Stmt} {i j : Nat} {m : Machine}
    {s s' : Activation} {flow : Flow}
    (hat : stmtsAt P frame i ss j) (hw : stmtsWellFormed frame known ss) (flat : ∀ st ∈ ss, st.Flat) (hs : frame.Sound)
    (small : frame.allocated.toNat + 2 * declaredIn ss ≤ Frame.maxAllocated) (hm : Stands P frame m s)
    (hip : m.ip = P.addr i) (hv : evalStmts call ss s = some (flow, s')) :
    Reaches P m (Ends P (frameAfter frame ss) m j flow s') := by
  match ss with
  | [] =>
    cases hv
    exact Reaches.here ⟨hip.trans (congrArg P.addr hat), hm, Machine.Holding.refl m⟩
  | st :: ss =>
    obtain ⟨k, hst, hss⟩ := hat
    simp only [declaredIn] at small
    have grown := st.toNat_allocated frame (by omega)
    have hflat := flat st List.mem_cons_self
    have rest : ∀ st ∈ ss, st.Flat := fun st' hmem => flat st' (List.mem_cons_of_mem _ hmem)
    rw [evalStmts] at hv
    split at hv
    · rename_i s₁ he
      refine (Stmt.reaches hP hc hst hw.1 hflat hs (by omega) hm hip he).bind fun m₁ h => ?_
      obtain ⟨hip₁, stands, holding⟩ := h
      refine (stmts_reach hP hc hss hw.2 rest (st.sound_frame frame hs (by omega)) (by omega) stands hip₁ hv).mono
        fun m₂ h₂ => ?_
      exact Ends.after holding hm.ceiling h₂
    · rename_i hnot
      cases flow with
      | next => exact (hnot s' hv).elim
      | returned v => exact Stmt.reaches hP hc hst hw.1 hflat hs (by omega) hm hip hv

end

end

end DotCom
