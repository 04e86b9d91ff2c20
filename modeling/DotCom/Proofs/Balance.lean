/-
  DotCom.Proofs.Balance — what an epilogue finds on the stack. Whatever the values are that code
  computes, and whether or not it comes to an end, `sp` is off at the `pop bp` of an epilogue by
  the bytes that the epilogue releases less those that the activation has reserved. Both are the
  same if every declaration above the epilogue has been run, so always in a program whose
  declarations are flat; a branch that is skipped reserves nothing, and then they are not.

  - `Program.epilogue_releases`: the general statement.
  - `Program.skipped_declaration_unbalanced`: a program whose return does not come back.
-/

import DotCom.Proofs.Machine.Watch
import DotCom.Proofs.Safety
import DotCom.Proofs.Simulation.Programs

namespace DotCom

variable {P : Placement}

/-! ## Inside an activation -/

/-- A state of the activation whose prologue set `bp` to `base` and left the memory `mem`. What lies
    from there up is never written. -/
structure Inside (P : Placement) (base : UInt16) (mem : Memory) (m : Machine) : Prop where
  code : m.memory.Carries P
  bp : m.regs.bp = base
  kept : ∀ a : UInt16, base.toNat ≤ a.toNat → m.memory.read a = mem.read a

namespace Inside

variable {base : UInt16} {mem : Memory} {m m' : Machine}

theorem congr (h : Inside P base mem m) (hmemory : m'.memory = m.memory) (hbp : m'.regs.bp = m.regs.bp) :
    Inside P base mem m' :=
  ⟨hmemory ▸ h.code, hbp.trans h.bp, hmemory ▸ h.kept⟩

/-- A word written between the image and `base`. -/
theorem write {a v : UInt16} (h : Inside P base mem m) (hP : P.Sits) (hlow : P.stop ≤ a.toNat)
    (hhigh : a.toNat + 2 ≤ base.toNat) (hmemory : m'.memory = m.memory.writeWord a v)
    (hbp : m'.regs.bp = m.regs.bp) : Inside P base mem m' := by
  have hlt := base.toNat_lt
  refine ⟨?_, hbp.trans h.bp, fun b hb => ?_⟩
  · rw [hmemory]
    exact h.code.writeWord v hP.segment hlow (by omega)
  · rw [hmemory, Memory.read_writeWord_outside (by omega) (by omega)]
    exact h.kept b hb

end Inside

/-- Code at `m` that leaves `sp` as it found it may go on at `j` for `n` steps. -/
def Resumes (P : Placement) (B : Budget) (n : Nat) (base : UInt16) (mem : Memory) (live : List Invocation)
    (m : Machine) (j : Nat) : Prop :=
  ∀ m', Inside P base mem m' → m'.regs.sp = m.regs.sp → m'.ip = P.addr j → Safe P B n ⟨m', live⟩

/-- What the prologue of a call has left on the stack. -/
structure Invocation.Entered (c : Invocation) (mem : Memory) : Prop where
  caller : c.sp.toNat = c.base.toNat + 4
  saved : mem.readWord c.base = c.bp
  back : mem.readWord (c.base + 2) = c.back

/-- The caller gets back what it had. -/
structure Invocation.Returned (P : Placement) (c : Invocation) (mem : Memory) (m : Machine) : Prop where
  ip : m.ip = c.back
  sp : m.regs.sp = c.sp
  bp : m.regs.bp = c.bp
  code : m.memory.Carries P
  kept : ∀ a : UInt16, c.sp.toNat ≤ a.toNat → m.memory.read a = mem.read a

/-- A call that has just been made from `c`. -/
structure Invocation.Called (P : Placement) (c : Invocation) (start : Nat) (m : Machine) : Prop where
  ip : m.ip = P.addr start
  code : m.memory.Carries P
  top : m.top = c.back
  sp : c.sp.toNat = m.regs.sp.toNat + 2
  bp : c.bp = m.regs.bp
  reserved : c.reserved = 0

/-- Calls of functions are safe for `n` steps if what comes behind them is. -/
def CallsSafe (P : Placement) (B : Budget) (n : Nat) : Prop :=
  ∀ {name start m c rest}, (name, start) ∈ P.starts → c.Called P start m →
    (∀ m', c.Returned P m.memory m' → Safe P B n ⟨m', rest⟩) → Safe P B n ⟨m, c :: rest⟩

/-! ## Leaves and operators -/

section

variable {B : Budget} {n i j : Nat} {base : UInt16} {mem : Memory} {m : Machine} {live : List Invocation}

/-- Where a jump lands. -/
theorem Safe.jump {jump : Instr} {k l : Nat} (hb : P.Block i [jump] k) (hj : jump.Lands k l)
    (hm : m.memory.Carries P) (hip : m.ip = P.addr i) (next : Safe P B n ⟨{ m with ip := P.addr l }, live⟩) :
    Safe P B n ⟨m, live⟩ := by
  obtain ⟨rel, ho, target⟩ := hj.operation P
  refine Safe.next hb hm hip ho rfl rfl fun _ hb => ?_
  rw [← hb.nil] at target
  rw [← target] at next
  exact next

/-- A register for values is set. -/
theorem Safe.load {instr : Instr} {dst : Reg} {src : Source} (hb : P.Block i [instr] j)
    (ho : instr.operation? = some (.move (.reg dst) src)) (hd : dst = .ax ∨ dst = .bx)
    (hin : Inside P base mem m) (hip : m.ip = P.addr i) (next : Resumes P B n base mem live m j) :
    Safe P B n ⟨m, live⟩ := by
  rcases hd with rfl | rfl
  · refine Safe.next hb hin.code hip ho rfl rfl fun _ hb => ?_
    exact next _ (hin.congr rfl rfl) rfl (congrArg P.addr hb.nil)
  · refine Safe.next hb hin.code hip ho rfl rfl fun _ hb => ?_
    exact next _ (hin.congr rfl rfl) rfl (congrArg P.addr hb.nil)

theorem Leaf.safe {frame : Frame} {dst : Reg} {leaf : Leaf} (hat : leaf.At P frame dst i j)
    (hd : dst = .ax ∨ dst = .bx) (hin : Inside P base mem m) (hip : m.ip = P.addr i)
    (next : Resumes P B n base mem live m j) : Safe P B n ⟨m, live⟩ := by
  cases leaf with
  | var name => exact Safe.load hat rfl hd hin hip next
  | int value => exact Safe.load hat rfl hd hin hip next
  | str text =>
    obtain ⟨jump, k, l, address, hjump, -, rfl, hlands, hload, -⟩ := hat
    exact Safe.jump hjump hlands hin.code hip (Safe.load hload rfl hd (hin.congr rfl rfl) rfl next)

theorem Machine.divide_running {m' : Machine} {d addr : UInt16} (h : m.divide d addr = .running m') :
    ∃ q r, m' = (m.set .ax q).set .dx r := by
  unfold divide at h
  dsimp only at h
  split at h
  · exact nomatch h
  split at h
  · exact nomatch h
  split at h
  · exact nomatch h
  · exact ⟨_, _, (Step.running.inj h).symm⟩

/-- The code of an operator, whatever its operands are. A division may fault. -/
theorem safe_operator {op : BinaryOp} (hs : op.Supported) (hb : P.Block i op.instrs j)
    (hin : Inside P base mem m) (hip : m.ip = P.addr i) (next : Resumes P B n base mem live m j) :
    Safe P B n ⟨m, live⟩ := by
  have comparison : ∀ cond, op.instrs = comparison cond → Safe P B n ⟨m, live⟩ := by
    intro cond e
    rw [e] at hb
    refine Safe.next hb hin.code hip rfl rfl rfl fun _ hb => ?_
    refine Safe.next hb hin.code rfl rfl rfl rfl fun _ hb => ?_
    refine Safe.jcc hb hin.code rfl (fun hb => ?_) (fun hb => ?_)
    · have past : P.addr j = _ := (congrArg P.addr hb.2).trans (P.addr_add _ _)
      exact next _ (hin.congr rfl rfl) rfl past.symm
    · refine Safe.next hb hin.code rfl rfl rfl rfl fun _ hb => ?_
      exact next _ (hin.congr rfl rfl) rfl (congrArg P.addr hb.nil)
  cases op with
  | add | sub | mul =>
    refine Safe.next hb hin.code hip rfl rfl rfl fun _ hb => ?_
    exact next _ (hin.congr rfl rfl) rfl (congrArg P.addr hb.nil)
  | div =>
    refine Safe.next hb hin.code hip rfl rfl rfl fun _ hb => ?_
    refine Safe.exec hb hin.code rfl rfl (fun _ => ⟨nofun, fun _ => trivial⟩) fun k m' hk _ _ hr hb => ?_
    obtain ⟨q, r, rfl⟩ := Machine.divide_running hr
    exact Safe.mono (n := n) (next _ (hin.congr rfl rfl) rfl (congrArg P.addr hb.nil)) (by omega)
  | eq | ne | lt | le | gt | ge => exact comparison _ rfl
  | mod | shl | shr | bitAnd | bitXor | bitOr | logicAnd | logicOr | subscript => exact absurd hs (by decide)

theorem Machine.dos_running {m' : Machine} (h : m.dos = .running m') :
    ∃ bytes, m' = { m with output := m.output ++ bytes } := by
  unfold dos at h
  dsimp only at h
  split at h
  · split at h
    · exact ⟨_, (Step.running.inj h).symm⟩
    · exact nomatch h
  · split at h
    · exact nomatch h
    · exact nomatch h

/-- The two steps of a call of the operating system, the second of which may not come back. -/
theorem Safe.dosCall {function : DosFunction} (hb : P.Block i [.dosCall function] j) (hm : m.memory.Carries P)
    (hip : m.ip = P.addr i)
    (next : ∀ m₁ m₂ : Machine, m₁.memory = m.memory → m₁.regs.sp = m.regs.sp → m₁.regs.bp = m.regs.bp →
      m₁.ip = P.addr j → Word.high m₁.regs.ax = function.number → m₁.dos = .running m₂ →
      Safe P B n ⟨m₂, live⟩) :
    Safe P B n ⟨m, live⟩ := by
  obtain ⟨hh, hb⟩ := hb.cons
  obtain ⟨first, second⟩ := Memory.decode_dosCall (hm.shows hh)
  rw [← hip] at first
  refine Safe.of_decode first (fun _ => ⟨nofun, fun _ => trivial⟩) fun k m₁ hk _ _ hr => ?_
  have after : m₁.memory = m.memory ∧ m₁.regs.sp = m.regs.sp ∧ m₁.regs.bp = m.regs.bp ∧
      m₁.ip = P.addr i + 2 ∧ m₁.regs.ax = Word.ofBytes (Word.low m.regs.ax) function.number := by
    rw [← Step.running.inj hr, ← hip]
    exact ⟨rfl, rfl, rfl, rfl, rfl⟩
  obtain ⟨hmemory, hsp, hbp, hip₁, hax⟩ := after
  rw [← hmemory, ← hip₁] at second
  refine Safe.of_decode second (fun _ => ⟨nofun, fun _ => trivial⟩) fun l m₂ hl _ _ hr => ?_
  have hnext : P.addr i + 4 = P.addr j := by
    rw [← hb.nil]
    exact (P.addr_add i 4).symm
  refine Safe.mono (n := n) (next { m₁ with ip := P.addr i + 4 } m₂ hmemory hsp hbp hnext ?_ hr) (by omega)
  show Word.high m₁.regs.ax = _
  rw [hax, Word.high_ofBytes]

theorem Safe.print (hb : P.Block i [.dosCall .printString] j) (hin : Inside P base mem m) (hip : m.ip = P.addr i)
    (next : Resumes P B n base mem live m j) : Safe P B n ⟨m, live⟩ := by
  refine Safe.dosCall hb hin.code hip fun m₁ m₂ hmemory hsp hbp hip₁ _ hr => ?_
  obtain ⟨bytes, rfl⟩ := Machine.dos_running hr
  exact next _ (hin.congr hmemory hbp) hsp hip₁

theorem Safe.exit (hb : P.Block i [.dosCall .exit] j) (hm : m.memory.Carries P) (hip : m.ip = P.addr i) :
    Safe P B n ⟨m, live⟩ := by
  refine Safe.dosCall hb hm hip fun m₁ m₂ _ _ _ _ hnumber hr => ?_
  rw [Machine.dos_exit rfl hnumber] at hr
  exact nomatch hr

end

/-! ## Expressions -/

theorem Frame.toInt_disp {frame : Frame} (hs : frame.Sound) {name : String} {offset : UInt16}
    (ho : frame.offset? name = some offset) :
    (frame.disp name).toUInt16.toInt16.toInt = -(offset.toNat : Int) := by
  rw [Int16.toInt16_toUInt16, Frame.disp_eq ho, Frame.toInt_neg_offset (hs.offset_le ho)]

/-- An expression that the activation `c` is about to run for at most `n` steps. -/
structure Underway (P : Placement) (B : Budget) (n : Nat) (c : Invocation) (frame : Frame) : Prop where
  sits : P.Sits
  sound : frame.Sound
  calls : ∀ k < n, CallsSafe P B k
  flat : B.flat → frame.allocated.toNat ≤ c.reserved.toNat

section

variable {B : Budget} {n : Nat} {c : Invocation} {rest : List Invocation} {mem : Memory} {frame : Frame}
  {known : List String}

theorem Safe.push {i j : Nat} {m : Machine} (hP : P.Sits) (hb : P.Block i [.push .ax] j)
    (hin : Inside P c.base mem m) (hsp : m.regs.sp.toNat + c.reserved.toNat ≤ c.base.toNat) (hip : m.ip = P.addr i)
    (next : ∀ m', Inside P c.base mem m' → m'.regs.sp.toNat + 2 = m.regs.sp.toNat → m'.regs.sp + 2 = m.regs.sp →
      m'.ip = P.addr j → Safe P B n ⟨m', c :: rest⟩) : Safe P B n ⟨m, c :: rest⟩ := by
  refine Safe.next hb hin.code hip rfl rfl rfl fun room hb => Safe.above fun room' => ?_
  have low : 2 ≤ m.regs.sp.toNat := Nat.le_trans hP.stop room
  have hlow : (m.regs.sp - 2).toNat = m.regs.sp.toNat - 2 := UInt16.toNat_sub_of_le _ _ low
  refine next _ (hin.write hP room' ?_ rfl rfl) ?_ (UInt16.sub_add_cancel _ _) (congrArg P.addr hb.nil)
  · show (m.regs.sp - 2).toNat + 2 ≤ c.base.toNat
    omega
  · show (m.regs.sp - 2).toNat + 2 = m.regs.sp.toNat
    omega

/-- A call, once `count` bytes of arguments are on the stack. -/
theorem Safe.call {name : String} {i j count : Nat} {bytes : Int16} {address : UInt16} {m : Machine}
    (h : Underway P B n c frame) (hb : P.Block i [.movImm .ax address, .callReg .ax, .addImm .sp bytes] j)
    (hn : bytes.toUInt16.toNat = count) (ha : P.Calls address name) (hin : Inside P c.base mem m)
    (hsp : m.regs.sp.toNat + c.reserved.toNat + count ≤ c.base.toNat) (hip : m.ip = P.addr i)
    (next : ∀ m', Inside P c.base mem m' → m'.regs.sp.toNat = m.regs.sp.toNat + count → m'.ip = P.addr j →
      Safe P B n ⟨m', c :: rest⟩) : Safe P B n ⟨m, c :: rest⟩ := by
  obtain ⟨start, hstart, haddress⟩ := ha
  refine Safe.next hb hin.code hip rfl rfl rfl fun room hb => ?_
  refine Safe.exec hb hin.code rfl rfl (fun _ => ⟨nofun, fun _ => trivial⟩) fun k m₁ hk _ _ hr hb =>
    Safe.above fun room' => ?_
  have low : 2 ≤ m.regs.sp.toNat := Nat.le_trans h.sits.stop room
  have hlow : (m.regs.sp - 2).toNat = m.regs.sp.toNat - 2 := UInt16.toNat_sub_of_le _ _ low
  obtain rfl := Step.running.inj hr
  have pushed : Inside P c.base mem { m with
      memory := m.memory.writeWord (m.regs.sp - 2) (P.addr (i + 3 + 2))
      regs := { m.regs with ax := address, sp := m.regs.sp - 2 }, ip := address } :=
    hin.write h.sits room' (show (m.regs.sp - 2).toNat + 2 ≤ _ by omega) rfl rfl
  have down : m.regs.sp.toNat = (m.regs.sp - 2).toNat + 2 := by omega
  refine h.calls k (by omega) hstart
    ⟨haddress.eq_addr, pushed.code, Memory.readWord_writeWord _ _ _, down, rfl, rfl⟩ fun m₂ back => ?_
  have inside : Inside P c.base mem m₂ := by
    refine ⟨back.code, back.bp.trans hin.bp, fun a ha => (back.kept a ?_).trans (pushed.kept a ha)⟩
    show m.regs.sp.toNat ≤ a.toNat
    omega
  refine Safe.next hb back.code back.ip rfl rfl rfl fun _ hb => ?_
  refine Safe.mono (n := n) (next _ (inside.congr rfl rfl) ?_ (congrArg P.addr hb.nil)) (by omega)
  show (m₂.regs.sp + bytes.toUInt16).toNat = _
  have ceiling := c.base.toNat_lt
  rw [back.sp, ← hn]
  exact Word.toNat_add rfl (show m.regs.sp.toNat + _ < 65536 by omega)

/-- A variable is stored. -/
theorem Safe.store {i j : Nat} {m : Machine} {name : String} (h : Underway P B n c frame)
    (hb : P.Block i [.storeFrame .ax (frame.disp name)] j) (hname : frame.contains name)
    (hin : Inside P c.base mem m) (hsp : m.regs.sp.toNat + c.reserved.toNat ≤ c.base.toNat) (hip : m.ip = P.addr i)
    (next : Resumes P B n c.base mem (c :: rest) m j) : Safe P B n ⟨m, c :: rest⟩ := by
  obtain ⟨offset, ho⟩ := Frame.contains_iff.1 hname
  have inside := h.sound.inside ho
  have disp := Frame.toInt_disp h.sound ho
  have hbp := hin.bp
  refine Safe.exec hb hin.code hip rfl (fun room => ⟨nofun, fun flat => ?_⟩) fun k m' hk room fine hr hb => ?_
  · have room : P.stop ≤ m.regs.sp.toNat := room
    have reserved := h.flat flat
    show (P.stop : Int) ≤ m.regs.bp.toNat + (frame.disp name).toUInt16.toInt16.toInt
    rw [disp, hbp]
    omega
  · have fine : (P.stop : Int) ≤ m.regs.bp.toNat + (frame.disp name).toUInt16.toInt16.toInt := fine
    rw [disp, hbp] at fine
    have hslot : (c.base - offset).toNat = c.base.toNat - offset.toNat :=
      UInt16.toNat_sub_of_le _ _ (show offset.toNat ≤ c.base.toNat by omega)
    obtain rfl := Step.running.inj hr
    refine Safe.mono (n := n) (next _ (hin.write (a := c.base - offset) (v := m.regs.ax) h.sits ?_ ?_ ?_ rfl) rfl
      (congrArg P.addr hb.nil)) (by omega)
    · omega
    · omega
    · show m.memory.writeWord (m.regs.bp + (frame.disp name).toUInt16) _ = _
      rw [hbp, Frame.bp_add_disp ho]
      rfl

/-- The right operand of an operator, whose left one is kept on the stack meanwhile. -/
theorem Expr.safeRight {e : Expr} {i j : Nat} {m : Machine} (hP : P.Sits)
    (he : ∀ {i j m}, e.At P frame i j → Inside P c.base mem m →
      m.regs.sp.toNat + c.reserved.toNat ≤ c.base.toNat → m.ip = P.addr i →
      Resumes P B n c.base mem (c :: rest) m j → Safe P B n ⟨m, c :: rest⟩)
    (hat : e.RightAt P frame i j) (hin : Inside P c.base mem m)
    (hsp : m.regs.sp.toNat + c.reserved.toNat ≤ c.base.toNat) (hip : m.ip = P.addr i)
    (next : Resumes P B n c.base mem (c :: rest) m j) : Safe P B n ⟨m, c :: rest⟩ := by
  unfold Expr.RightAt at hat
  cases hleaf : e.leaf? with
  | some leaf =>
    rw [hleaf] at hat
    exact Leaf.safe hat (.inr rfl) hin hip next
  | none =>
    rw [hleaf] at hat
    obtain ⟨k, l, hpush, hoperand, hmove⟩ := hat
    refine Safe.push hP hpush hin hsp hip fun m₁ hin₁ hsp₁ hback hip₁ => ?_
    refine he hoperand hin₁ (by omega) hip₁ fun m₂ hin₂ hsp₂ hip₂ => ?_
    refine Safe.next hmove hin₂.code hip₂ rfl rfl rfl fun _ hb => ?_
    refine Safe.next hb hin₂.code rfl rfl rfl rfl fun _ hb => ?_
    refine next _ (hin₂.congr rfl rfl) ?_ (congrArg P.addr hb.nil)
    show m₂.regs.sp + 2 = m.regs.sp
    rw [hsp₂, hback]

mutual

/-- The code of an expression comes back to where it started on the stack, whatever it computes. -/
theorem Expr.safe {e : Expr} {i j : Nat} {m : Machine} (h : Underway P B n c frame) (hat : e.At P frame i j)
    (hw : e.WellFormed frame known) (hin : Inside P c.base mem m)
    (hsp : m.regs.sp.toNat + c.reserved.toNat ≤ c.base.toNat) (hip : m.ip = P.addr i)
    (next : Resumes P B n c.base mem (c :: rest) m j) : Safe P B n ⟨m, c :: rest⟩ := by
  match e with
  | .ident _ | .int _ | .str _ => exact Leaf.safe hat (.inl rfl) hin hip next
  | .call name args =>
    rw [Expr.At.eq_def] at hat
    dsimp only at hat
    split at hat
    · match args with
      | [message] =>
        obtain ⟨k, hmessage, hb⟩ := hat
        refine Expr.safe h hmessage hw.2.1 hin hsp hip fun m₁ hin₁ hsp₁ hip₁ => ?_
        refine Safe.next hb hin₁.code hip₁ rfl rfl rfl fun _ hb => ?_
        refine Safe.print hb (hin₁.congr rfl rfl) rfl fun m₂ hin₂ hsp₂ hip₂ => ?_
        exact next m₂ hin₂ (hsp₂.trans hsp₁) hip₂
      | [] | _ :: _ :: _ => exact hat.elim
    · obtain ⟨k, address, hargs, hb, hcalls⟩ := hat
      have hn := argBytes_of_at hargs h.sits (Nat.le_trans (Nat.le_add_right _ _) hb.1.le)
      refine safe_args h hargs hw.2 hin hsp hip fun m₁ hin₁ hsp₁ hip₁ => ?_
      refine Safe.call h hb hn hcalls hin₁ (by omega) hip₁ fun m₂ hin₂ hsp₂ hip₂ => ?_
      exact next m₂ hin₂ (UInt16.toNat_inj.1 (hsp₂.trans hsp₁)) hip₂
  | .assign target value =>
    obtain ⟨k, hvalue, hb⟩ := hat
    refine Expr.safe h hvalue hw.2 hin hsp hip fun m₁ hin₁ hsp₁ hip₁ => ?_
    refine Safe.store h hb hw.1 hin₁ (hsp₁ ▸ hsp) hip₁ fun m₂ hin₂ hsp₂ hip₂ => ?_
    exact next m₂ hin₂ (hsp₂.trans hsp₁) hip₂
  | .chain operands operators =>
    obtain ⟨-, -, hw⟩ := hw
    match operands with
    | [] => exact hat.elim
    | first :: operands =>
      obtain ⟨k, hfirst, htail⟩ := hat
      refine Expr.safe h hfirst hw.1 hin hsp hip fun m₁ hin₁ hsp₁ hip₁ => ?_
      refine safe_tail h htail hw.2 hin₁ (hsp₁ ▸ hsp) hip₁ fun m₂ hin₂ hsp₂ hip₂ => ?_
      exact next m₂ hin₂ (hsp₂.trans hsp₁) hip₂

theorem safe_args {args : List Expr} {i j : Nat} {m : Machine} (h : Underway P B n c frame)
    (hat : argsAt P frame i args j) (hw : allWellFormed frame known args) (hin : Inside P c.base mem m)
    (hsp : m.regs.sp.toNat + c.reserved.toNat ≤ c.base.toNat) (hip : m.ip = P.addr i)
    (next : ∀ m', Inside P c.base mem m' → m'.regs.sp.toNat + 2 * args.length = m.regs.sp.toNat →
      m'.ip = P.addr j → Safe P B n ⟨m', c :: rest⟩) : Safe P B n ⟨m, c :: rest⟩ := by
  match args with
  | [] => exact next m hin rfl (hip.trans (congrArg P.addr hat))
  | arg :: args =>
    obtain ⟨k, l, hargs, harg, hb⟩ := hat
    refine safe_args h hargs hw.2 hin hsp hip fun m₁ hin₁ hsp₁ hip₁ => ?_
    refine Expr.safe h harg hw.1 hin₁ (by omega) hip₁ fun m₂ hin₂ hsp₂ hip₂ => ?_
    refine Safe.push h.sits hb hin₂ (by rw [hsp₂]; omega) hip₂ fun m₃ hin₃ hsp₃ _ hip₃ => next m₃ hin₃ ?_ hip₃
    rw [hsp₂] at hsp₃
    rw [List.length_cons]
    omega

theorem safe_tail {ops : List BinaryOp} {operands : List Expr} {i j : Nat} {m : Machine}
    (h : Underway P B n c frame) (hat : tailAt P frame i ops operands j) (hw : allWellFormed frame known operands)
    (hin : Inside P c.base mem m) (hsp : m.regs.sp.toNat + c.reserved.toNat ≤ c.base.toNat) (hip : m.ip = P.addr i)
    (next : Resumes P B n c.base mem (c :: rest) m j) : Safe P B n ⟨m, c :: rest⟩ := by
  match ops, operands with
  | [], [] => exact next m hin rfl (hip.trans (congrArg P.addr hat))
  | [], _ :: _ | _ :: _, [] => exact hat.elim
  | op :: ops, operand :: operands =>
    obtain ⟨k, l, hright, ⟨hsupported, hop⟩, htail⟩ := hat
    refine Expr.safeRight h.sits (fun hat hin hsp hip next => Expr.safe h hat hw.1 hin hsp hip next) hright hin hsp hip
      fun m₁ hin₁ hsp₁ hip₁ => ?_
    refine safe_operator hsupported hop hin₁ hip₁ fun m₂ hin₂ hsp₂ hip₂ => ?_
    have back := hsp₂.trans hsp₁
    refine safe_tail h htail hw.2 hin₂ (back ▸ hsp) hip₂ fun m₃ hin₃ hsp₃ hip₃ => ?_
    exact next m₃ hin₃ (hsp₃.trans back) hip₃

end

end

/-! ## Between statements -/

namespace Invocation.Entered

variable {c : Invocation} {mem : Memory} {m : Machine}

theorem sp_eq (h : c.Entered mem) : c.sp = c.base + 4 := by
  have hlt := c.sp.toNat_lt
  rw [← UInt16.toNat_inj, Word.toNat_add (b := 4) h.caller.symm hlt]
  exact h.caller

theorem saved_eq (h : c.Entered mem) (hin : Inside P c.base mem m) : m.memory.readWord c.base = c.bp := by
  have := h.caller
  have := c.sp.toNat_lt
  rw [Memory.readWord_of_kept hin.kept (Nat.le_refl _) (by omega), h.saved]

theorem back_eq (h : c.Entered mem) (hin : Inside P c.base mem m) : m.memory.readWord (c.base + 2) = c.back := by
  have := h.caller
  have := c.sp.toNat_lt
  have two : (c.base + 2).toNat = c.base.toNat + 2 :=
    Word.toNat_add rfl (show c.base.toNat + 2 < 65536 by omega)
  rw [Memory.readWord_of_kept hin.kept (by omega) (by omega), h.back]

end Invocation.Entered

/-- A body that the activation `c` runs: what its code is linked to, and what comes behind its return. -/
structure Running (P : Placement) (B : Budget) (n : Nat) (link : Link) (known : List String) (c : Invocation)
    (rest : List Invocation) (mem : Memory) : Prop where
  sits : P.Sits
  links : P.Links link known
  calls : ∀ k < n, CallsSafe P B k
  entered : c.Entered mem
  leave : ∀ m', c.Returned P mem m' → Safe P B n ⟨m', rest⟩

/-- Between two statements, where `r` bytes of those that the frame counts have been reserved. -/
structure Between (P : Placement) (B : Budget) (base : UInt16) (mem : Memory) (frame : Frame) (r : UInt16)
    (m : Machine) : Prop extends Inside P base mem m where
  sp : m.regs.sp.toNat + r.toNat = base.toNat
  most : r.toNat ≤ frame.allocated.toNat
  flat : B.flat → r = frame.allocated

namespace Between

variable {B : Budget} {base r : UInt16} {mem : Memory} {frame : Frame} {m m' : Machine}

theorem congr (h : Between P B base mem frame r m) (hin : Inside P base mem m') (hsp : m'.regs.sp = m.regs.sp) :
    Between P B base mem frame r m' :=
  ⟨hin, hsp ▸ h.sp, h.most, h.flat⟩

theorem alike (h : Between P B base mem frame r m) (hmemory : m'.memory = m.memory)
    (hsp : m'.regs.sp = m.regs.sp) (hbp : m'.regs.bp = m.regs.bp) : Between P B base mem frame r m' :=
  h.congr (h.toInside.congr hmemory hbp) hsp

/-- Where the frame has grown by declarations that were not run. -/
theorem grow {frame' : Frame} (h : Between P B base mem frame r m)
    (hmore : frame.allocated.toNat ≤ frame'.allocated.toNat) (hflat : B.flat → frame' = frame) :
    Between P B base mem frame' r m :=
  ⟨h.toInside, h.sp, Nat.le_trans h.most hmore, fun flat => hflat flat ▸ h.flat flat⟩

end Between

/-- Code between statements may go on at `j` with the variables of `frame`. -/
def Passes (P : Placement) (B : Budget) (n : Nat) (c : Invocation) (rest : List Invocation) (mem : Memory)
    (frame : Frame) (j : Nat) : Prop :=
  ∀ m r, Between P B c.base mem frame r m → m.ip = P.addr j → Safe P B n ⟨m, { c with reserved := r } :: rest⟩

section

variable {B : Budget} {n : Nat} {link : Link} {known : List String} {c : Invocation} {rest : List Invocation}
  {mem : Memory} {r : UInt16}

theorem Running.epilogue {frame : Frame} {count i : Nat} {m : Machine} (h : Running P B n link known c rest mem)
    (hf : frame.Counts count 0) (hh : P.Holds i (encodeAll (epilogueInstrs frame))) (he : B.epilogue i (2 * count))
    (hm : Between P B c.base mem frame r m) (hip : m.ip = P.addr i) :
    Safe P B n ⟨m, { c with reserved := r } :: rest⟩ := by
  have hb : P.Block i (epilogueInstrs frame) _ := hh.block rfl
  have hreserved : m.regs.sp + r = c.base := by
    rw [← UInt16.toNat_inj, Word.toNat_add hm.sp c.base.toNat_lt]
    exact hm.sp
  have hsize : frame.frameSize.toUInt16 = frame.allocated := by
    rw [Frame.frameSize_eq hf.sound, UInt16.toUInt16_toInt16]
  have saved := h.entered.saved_eq hm.toInside
  have back := h.entered.back_eq hm.toInside
  refine Safe.next hb hm.code hip rfl rfl rfl fun _ hb' => ?_
  refine Safe.exec hb' hm.code rfl rfl (fun _ => ⟨fun _ => ⟨_, rest, rfl, ?_⟩, fun flat => ?_⟩)
    fun k m' hk _ fine hr hb' => ?_
  · refine ⟨hm.bp, ⟨i, _, 2 * count, frame.frameSize, he, hf.toInt_frameSize, hb, rfl, ?_, ?_⟩, saved, back,
      h.entered.sp_eq, hm.code⟩
    · exact hf.allocated ▸ hm.most
    · show m.regs.sp + frame.frameSize.toUInt16 + r = c.base + frame.frameSize.toUInt16
      rw [UInt16.add_assoc, UInt16.add_comm frame.frameSize.toUInt16, ← UInt16.add_assoc, hreserved]
  · intro c' hc'
    cases hc'
    show m.regs.sp + frame.frameSize.toUInt16 = c.base
    rw [hsize, ← hm.flat flat, hreserved]
  · have hbase : m.regs.sp + frame.frameSize.toUInt16 = c.base := fine { c with reserved := r } rfl
    have popped : m'.memory = m.memory ∧ m'.regs.bp = c.bp ∧ m'.regs.sp = c.base + 2 ∧
        m'.ip = P.addr (i + (Instr.addImm .sp frame.frameSize).size + 1) := by
      rw [← Step.running.inj hr]
      refine ⟨rfl, ?_, ?_, rfl⟩
      · show m.memory.readWord (m.regs.sp + frame.frameSize.toUInt16) = c.bp
        rw [hbase, saved]
      · show m.regs.sp + frame.frameSize.toUInt16 + 2 = c.base + 2
        rw [hbase]
    obtain ⟨hmemory, hbp, hsp', hip'⟩ := popped
    refine Safe.next hb' (hmemory ▸ hm.code) hip' rfl rfl rfl fun _ _ =>
      Safe.mono (n := n) (h.leave _ ?_) (by omega)
    refine ⟨?_, ?_, hbp, hmemory ▸ hm.code, fun a ha => ?_⟩
    · show m'.memory.readWord m'.regs.sp = c.back
      rw [hmemory, hsp', back]
    · show m'.regs.sp + 2 = c.sp
      rw [hsp', h.entered.sp_eq, UInt16.add_assoc]
      rfl
    · have caller := h.entered.caller
      show m'.memory.read a = mem.read a
      rw [hmemory]
      exact hm.kept a (by omega)

/-- An expression between two statements. -/
theorem Running.expr {frame : Frame} {e : Expr} {i : Nat} {m : Machine} (h : Running P B n link known c rest mem)
    (hs : frame.Sound) (hh : P.Holds i (e.code link frame i))
    (hb : P.base.toNat + (i + e.size frame) < 65536) (hw : e.WellFormed frame known)
    (hm : Between P B c.base mem frame r m) (hip : m.ip = P.addr i)
    (next : ∀ m', Between P B c.base mem frame r m' → m'.ip = P.addr (i + e.size frame) →
      Safe P B n ⟨m', { c with reserved := r } :: rest⟩) :
    Safe P B n ⟨m, { c with reserved := r } :: rest⟩ := by
  have under : Underway P B n { c with reserved := r } frame :=
    ⟨h.sits, hs, h.calls, fun flat => Nat.le_of_eq (congrArg UInt16.toNat (hm.flat flat).symm)⟩
  refine Expr.safe under (e.at_of_holds h.links hw rfl hh hb) hw hm.toInside (Nat.le_of_eq hm.sp) hip
    fun m' hin' hsp' hip' => next m' (hm.congr hin' hsp') hip'

/-- A declaration reserves a word. -/
theorem Running.declare {frame : Frame} {name : String} {count i : Nat} {m : Machine}
    (h : Running P B n link known c rest mem) (hf : frame.Counts count 1)
    (hh : P.Holds i (Instr.subImm .sp 2).encode) (hm : Between P B c.base mem frame r m) (hip : m.ip = P.addr i)
    (next : Passes P B n c rest mem (frame.bind name) (i + (Instr.subImm .sp 2).size)) :
    Safe P B n ⟨m, { c with reserved := r } :: rest⟩ := by
  refine Safe.next (hh.instr rfl) hm.code hip rfl rfl rfl fun room hb =>
    next _ (r + 2) ⟨hm.toInside.congr rfl rfl, ?_, ?_, fun flat => ?_⟩ rfl
  · have low : 2 ≤ m.regs.sp.toNat := Nat.le_trans h.sits.stop room
    have hlt := c.base.toNat_lt
    have hsp := hm.sp
    have hlow : (m.regs.sp - 2).toNat = m.regs.sp.toNat - 2 := UInt16.toNat_sub_of_le _ _ low
    have hmore : (r + 2).toNat = r.toNat + 2 := Word.toNat_add rfl (show r.toNat + 2 < 65536 by omega)
    show (m.regs.sp - 2).toNat + (r + 2).toNat = c.base.toNat
    omega
  · have most := hm.most
    have room := hf.room_of
    rw [Frame.maxAllocated] at room
    have hmore : (r + 2).toNat = r.toNat + 2 := Word.toNat_add rfl (show r.toNat + 2 < 65536 by omega)
    rw [hmore, Frame.toNat_allocated_bind name hf.room_of]
    omega
  · exact congrArg (· + 2) (hm.flat flat)

/-! ## Statements -/

/-- The budget has every epilogue of `releases`. -/
def Budget.Covers (B : Budget) (releases : List Release) : Prop :=
  ∀ pos bytes, .epilogue pos bytes ∈ releases → B.epilogue pos bytes

theorem Budget.covers_append {first second : List Release} :
    B.Covers (first ++ second) ↔ B.Covers first ∧ B.Covers second := by
  simp only [Covers, List.mem_append, or_imp, forall_and]

mutual

/-- What a statement leaves reserved is at most what is written, and all of it if the declarations are flat. -/
theorem Stmt.safe {st : Stmt} {frame : Frame} {count i : Nat} {m : Machine} {r : UInt16}
    (h : Running P B n link known c rest mem) (hf : frame.Counts count st.declared)
    (hh : P.Holds i (st.code link frame i)) (hend : P.base.toNat + (i + st.size frame) < 65536)
    (hw : st.WellFormed frame known) (covers : B.Covers (st.releases frame count i)) (hflat : B.flat → st.Flat)
    (hm : Between P B c.base mem frame r m) (hip : m.ip = P.addr i)
    (next : Passes P B n c rest mem (st.frame frame) (i + st.size frame)) :
    Safe P B n ⟨m, { c with reserved := r } :: rest⟩ := by
  match st with
  | .declare _ name => exact h.declare hf hh hm hip next
  | .expr e => exact h.expr hf.sound hh hend hw hm hip fun m' hm' hip' => next m' r hm' hip'
  | .ret e =>
    obtain ⟨hvalue, hepilogue⟩ := hh.append
    rw [Expr.length_code] at hepilogue
    rw [Stmt.releases, Budget.covers_append] at covers
    rw [Stmt.size] at hend
    refine h.expr hf.sound hvalue (by omega) hw hm hip fun m' hm' hip' => ?_
    exact h.epilogue hf hepilogue (covers.2 _ _ List.mem_cons_self) hm' hip'
  | .cond chain => exact IfChain.safe h hf hh rfl hend (h.links.addresses hend) hw covers hflat hm hip next
  | .loop _ _ => exact hw.elim

theorem IfChain.safe {chain : IfChain} {frame : Frame} {count i j : Nat} {exit : UInt16} {m : Machine} {r : UInt16}
    (h : Running P B n link known c rest mem) (hf : frame.Counts count chain.declared)
    (hh : P.Holds i (chain.code link frame i exit)) (hj : i + chain.size frame = j)
    (hend : P.base.toNat + j < 65536) (hexit : P.Addresses exit j) (hw : chain.WellFormed frame known)
    (covers : B.Covers (chain.releases frame count i)) (hflat : B.flat → chain.declared = 0)
    (hm : Between P B c.base mem frame r m) (hip : m.ip = P.addr i)
    (next : Passes P B n c rest mem (chain.frame frame) j) :
    Safe P B n ⟨m, { c with reserved := r } :: rest⟩ := by
  match chain with
  | .branch guard body other =>
    obtain ⟨hguard, htest, hbody, hleave, hother⟩ := branch_pieces hh
    obtain ⟨hwguard, hwbody, hshort, hwother⟩ := hw
    rw [IfChain.releases, Budget.covers_append, Budget.covers_append] at covers
    rw [IfChain.size] at hj
    simp only [Instr.size_test, Instr.size_jcc, Instr.size_movImm, Instr.size_jmpReg] at hj
    simp only [IfChain.declared, Nat.add_eq_zero_iff] at hflat
    have distance := Int8.toInt_ofNat_of_lt (Nat.lt_succ_of_le hshort)
    have inBody := toNat_allocated_after frame body (hf.less (Nat.le_add_right _ _)).room_of
    have inOther := other.toNat_allocated (frameAfter frame body) hf.after.room_of
    have hsize : bodySize frame body = stmtsSize frame body + 5 := rfl
    refine h.expr hf.sound hguard (by omega) hwguard hm hip fun m₁ hm₁ hip₁ => ?_
    refine Safe.next (htest.block rfl) hm₁.code hip₁ rfl rfl rfl fun _ hb => ?_
    refine Safe.jcc hb hm₁.code rfl (fun _ => ?_) (fun _ => ?_)
    · -- The branch is skipped, and the frame has grown by what was not reserved.
      have grown : Between P B c.base mem (frameAfter frame body) r m₁ :=
        hm₁.grow (by omega) fun flat => frameAfter_of_declared (hflat flat).1
      refine IfChain.safe h hf.after hother (by omega) hend hexit hwother covers.2 (fun flat => (hflat flat).2)
        (grown.alike rfl rfl rfl) (P.addr_add_signExtend ?_) next
      show ((_ + 5 : Nat) : Int) = (_ + 4 : Nat) + _
      omega
    · refine stmts_safe h (hf.less (Nat.le_add_right _ _)) hbody (by omega) hwbody covers.1.2
        (fun flat => flat_of_declaredIn (hflat flat).1) (hm₁.alike rfl rfl rfl) rfl fun m₂ r₂ hm₂ hip₂ => ?_
      have grown : Between P B c.base mem (other.frame (frameAfter frame body)) r₂ m₂ :=
        hm₂.grow (by omega) fun flat => IfChain.frame_of_declared (hflat flat).2
      refine Safe.next (hleave.block rfl) hm₂.code hip₂ rfl rfl rfl fun _ hb => ?_
      refine Safe.next hb hm₂.code rfl rfl rfl rfl fun _ _ => ?_
      exact next _ r₂ (grown.alike rfl rfl rfl) hexit.eq_addr
  | .otherwise body =>
    subst hj
    exact stmts_safe h hf hh hend hw covers (fun flat => flat_of_declaredIn (hflat flat)) hm hip next
  | .done =>
    subst hj
    exact next m r hm hip

theorem stmts_safe {ss : List Stmt} {frame : Frame} {count i : Nat} {m : Machine} {r : UInt16}
    (h : Running P B n link known c rest mem) (hf : frame.Counts count (declaredIn ss))
    (hh : P.Holds i (stmtsCode link frame i ss)) (hend : P.base.toNat + (i + stmtsSize frame ss) < 65536)
    (hw : stmtsWellFormed frame known ss) (covers : B.Covers (stmtsReleases frame count i ss))
    (hflat : B.flat → ∀ st ∈ ss, st.Flat) (hm : Between P B c.base mem frame r m) (hip : m.ip = P.addr i)
    (next : Passes P B n c rest mem (frameAfter frame ss) (i + stmtsSize frame ss)) :
    Safe P B n ⟨m, { c with reserved := r } :: rest⟩ := by
  match ss with
  | [] => exact next m r hm hip
  | st :: ss =>
    obtain ⟨hst, hss⟩ := hh.append
    rw [Stmt.length_code] at hss
    rw [stmtsReleases, Budget.covers_append] at covers
    rw [stmtsSize, ← Nat.add_assoc i] at hend next
    refine Stmt.safe h (hf.less (Nat.le_add_right _ _)) hst (by omega) hw.1 covers.1
      (fun flat => hflat flat st List.mem_cons_self) hm hip fun m₁ r₁ hm₁ hip₁ => ?_
    refine stmts_safe h hf.stmt hss hend hw.2 covers.2 (fun flat st' hmem => ?_) hm₁ hip₁ next
    exact hflat flat st' (List.mem_cons_of_mem _ hmem)

end

end

/-! ## Functions -/

/-- A prologue saves `bp` below the return address. -/
theorem Invocation.entered {m : Machine} {c : Invocation} (low : 2 ≤ m.regs.sp.toNat)
    (hsp : c.sp.toNat = m.regs.sp.toNat + 2) (hbase : c.base = m.regs.sp - 2) (hbp : c.bp = m.regs.bp)
    (htop : m.top = c.back) : c.Entered (m.memory.writeWord (m.regs.sp - 2) m.regs.bp) := by
  have hlt := c.sp.toNat_lt
  have hlow : (m.regs.sp - 2).toNat = m.regs.sp.toNat - 2 := UInt16.toNat_sub_of_le _ _ low
  refine ⟨?_, ?_, ?_⟩
  · rw [hbase]
    omega
  · rw [hbase, hbp, Memory.readWord_writeWord]
  · rw [hbase, UInt16.sub_add_cancel, ← htop]
    exact Memory.readWord_of_kept (fun _ => Memory.read_writeWord_push low) (Nat.le_refl _) (by omega)

theorem Function.safe {B : Budget} {n : Nat} {link : Link} {known : List String} {f : Function} {i : Nat}
    {m : Machine} {c : Invocation} {rest : List Invocation} (hP : P.Sits) (hl : P.Links link known)
    (calls : ∀ k < n, CallsSafe P B k) (hh : P.Holds i (f.code link i)) (hw : f.WellFormed known)
    (covers : B.Covers (f.releases i)) (hflat : B.flat → ∀ st ∈ f.body, st.Flat) (called : c.Called P i m)
    (leave : ∀ m', c.Returned P m.memory m' → Safe P B n ⟨m', rest⟩) : Safe P B n ⟨m, c :: rest⟩ := by
  obtain ⟨hprologue, hbody, hepilogue⟩ := function_pieces hh
  obtain ⟨hip, hcode, htop, hsp, hbp, hreserved⟩ := called
  rw [Function.releases, Budget.covers_append] at covers
  refine Safe.next (hprologue.block rfl) hcode hip rfl rfl rfl fun room hb => Safe.above fun room' => ?_
  have low : 2 ≤ m.regs.sp.toNat := Nat.le_trans hP.stop room
  have hcode' : (m.memory.writeWord (m.regs.sp - 2) m.regs.bp).Carries P := by
    have hlow : (m.regs.sp - 2).toNat = m.regs.sp.toNat - 2 := UInt16.toNat_sub_of_le _ _ low
    have hlt := m.regs.sp.toNat_lt
    exact hcode.writeWord _ hP.segment room' (by omega)
  refine Safe.next hb hcode' rfl rfl rfl rfl fun _ hb => ?_
  -- From here on the call is known by the base that the prologue has set.
  obtain ⟨back, sp, bp, base, reserved⟩ := c
  obtain rfl : reserved = 0 := hreserved
  have running : Running P B n link known ⟨back, sp, bp, m.regs.sp - 2, 0⟩ rest
      (m.memory.writeWord (m.regs.sp - 2) m.regs.bp) := by
    refine ⟨hP, hl, calls, Invocation.entered low hsp rfl hbp htop, fun m' h => leave m' ?_⟩
    refine ⟨h.ip, h.sp, h.bp, h.code, fun a ha => (h.kept a ha).trans (Memory.read_writeWord_push low ?_)⟩
    exact Nat.le_trans (Nat.le.intro hsp.symm) ha
  have segment : P.base.toNat + P.image.length ≤ 65536 := hP.segment
  have inside := hepilogue.le
  have positive := length_epilogue_pos (frameAfter f.frame f.body)
  refine stmts_safe running hw.counts hbody (by omega) hw.body covers.1 hflat
    ⟨⟨hcode', rfl, fun _ _ => rfl⟩, rfl, Nat.zero_le _, fun _ => rfl⟩ (congrArg P.addr hb.nil)
    fun m₂ r₂ hm₂ hip₂ => ?_
  have counts := (hw.counts.less (Nat.le_refl (declaredIn f.body + 0))).after
  rw [Nat.zero_add] at counts
  exact running.epilogue counts hepilogue (covers.2 _ _ List.mem_cons_self) hm₂ hip₂

/-! ## Programs -/

/-- A function at its start: its code, and what it releases. -/
theorem function_of_start {link : Link} {fs : List Function} {known : List String} {i start : Nat} {name : String}
    (hstart : (name, start) ∈ startsFrom i fs) (hw : functionsWellFormed known fs)
    (hh : P.Holds i (functionsCode link i fs)) :
    ∃ f ∈ fs, ∃ before, (∀ name ∈ before, name ∈ known ∨ name ∈ fs.map Function.name) ∧ f.WellFormed before ∧
      P.Holds start (f.code link start) ∧ ∀ r ∈ f.releases start, r ∈ functionsReleases i fs := by
  induction fs generalizing known i with
  | nil => exact absurd hstart List.not_mem_nil
  | cons f fs ih =>
    obtain ⟨hcode, hothers⟩ := hh.append
    rw [Function.length_code] at hothers
    rw [functionsReleases]
    simp only [List.mem_append, List.map_cons]
    rcases List.mem_cons.1 hstart with hfirst | hstart
    · cases hfirst
      refine ⟨f, List.mem_cons_self, _, fun name hn => ?_, hw.1.2, hcode, fun r hr => .inl hr⟩
      rcases List.mem_cons.1 hn with rfl | hn
      · exact .inr List.mem_cons_self
      · exact .inl hn
    · obtain ⟨g, hg, before, hbefore, hwg, hholds, hr⟩ := ih hstart hw.2 hothers
      refine ⟨g, List.mem_cons_of_mem _ hg, before, fun name hn => ?_, hwg, hholds, fun r h => .inr (hr r h)⟩
      rcases hbefore name hn with hn | hn
      · rcases List.mem_cons.1 hn with rfl | hn
        · exact .inr List.mem_cons_self
        · exact .inl hn
      · exact .inr (List.mem_cons_of_mem _ hn)

/-- What a program has to release. -/
def Program.budget (p : Program) : Budget where
  epilogue pos bytes := .epilogue pos bytes ∈ p.releases
  flat := p.Flat

/-- By induction on the steps to go, since a call takes one. -/
theorem Program.callsSafe {p : Program} {link : Link} (hP : P.Sits)
    (hl : P.Links link (p.functions.map Function.name)) (hw : functionsWellFormed [] p.functions)
    (hstarts : P.starts = startsFrom stubSize p.functions)
    (hh : P.Holds stubSize (functionsCode link stubSize p.functions)) (n : Nat) : CallsSafe P p.budget n := by
  induction n using Nat.strongRecOn with
  | ind n ih =>
    intro name start m c rest hstart called leave
    rw [hstarts] at hstart
    obtain ⟨f, hf, before, hbefore, hwf, hholds, hreleases⟩ := function_of_start hstart hw hh
    refine Function.safe hP (hl.mono fun name hn => ?_) ih hholds hwf (fun pos bytes hr => hreleases _ hr)
      (fun flat => flat f hf) called leave
    exact (hbefore name hn).resolve_left List.not_mem_nil

theorem Program.safe {B : Budget} {p : Program} {entryPoint : String} {m : Machine} (hP : P.Sits)
    (hp : p.At P entryPoint) (calls : ∀ k, CallsSafe P B k) (hip : m.ip = P.addr 0) (hcode : m.memory.Carries P)
    (n : Nat) : Safe P B n ⟨m, []⟩ := by
  obtain ⟨address, hb, start, hstart, haddress⟩ := hp.stub
  refine Safe.next hb hcode hip rfl rfl rfl fun room hb => ?_
  refine Safe.exec hb hcode rfl rfl (fun _ => ⟨nofun, fun _ => trivial⟩) fun k m₁ hk _ _ hr hb =>
    Safe.above fun room' => ?_
  have low : 2 ≤ m.regs.sp.toNat := Nat.le_trans hP.stop room
  have hlow : (m.regs.sp - 2).toNat = m.regs.sp.toNat - 2 := UInt16.toNat_sub_of_le _ _ low
  have hlt := m.regs.sp.toNat_lt
  have down : m.regs.sp.toNat = (m.regs.sp - 2).toNat + 2 := by omega
  obtain rfl := Step.running.inj hr
  have hcode' : ∀ v, (m.memory.writeWord (m.regs.sp - 2) v).Carries P := fun v =>
    hcode.writeWord v hP.segment room' (by omega)
  refine calls k hstart ⟨haddress.eq_addr, hcode' _, Memory.readWord_writeWord _ _ _, down, rfl, rfl⟩
    fun m₂ back => ?_
  exact Safe.exit hb back.code back.ip

/-- An epilogue that finds `sp` where the prologue left it goes back to the caller. -/
theorem Watch.Releases.returns {B : Budget} {w : Watch} {c : Invocation} (h : w.Releases P B c)
    (hsp : w.machine.regs.sp = c.base) :
    ∃ m, w.machine.after 2 = some m ∧ m.ip = c.back ∧ m.regs.bp = c.bp ∧ m.regs.sp = c.sp := by
  obtain ⟨i, j, bytes, released, -, -, hb, hip, -⟩ := h.sp
  obtain ⟨-, hb⟩ := hb.cons
  obtain ⟨hpop, hb⟩ := hb.cons
  obtain ⟨hret, -⟩ := hb.cons
  have first := Machine.step_of_holds h.code hpop hip rfl
  have second := Machine.step_of_holds
    (m := { w.machine with ip := P.addr (i + _ + 1) }.drop.set .bp w.machine.top) h.code hret rfl rfl
  refine ⟨_, (Machine.after_succ first 1).trans ((Machine.after_succ second 0).trans rfl), ?_, ?_, ?_⟩
  · show w.machine.memory.readWord (w.machine.regs.sp + 2) = c.back
    rw [hsp, h.back]
  · show w.machine.memory.readWord w.machine.regs.sp = c.bp
    rw [hsp, h.saved]
  · show w.machine.regs.sp + 2 + 2 = c.sp
    rw [hsp, h.caller, UInt16.add_assoc]
    rfl

/-! ## A declaration in a branch -/

/-- A function that declares a variable in a branch, called once. -/
def Program.branching (guard : Int) : Program :=
  let int : Ty := ⟨.int, 0⟩
  ⟨[⟨"f", int, [], [.cond (.branch (.int guard) [.declare int "y"] .done), .ret (.int 2)]⟩,
    ⟨"main", int, [], [.ret (.call "f" [])]⟩]⟩

section

variable {n : Nat} {Q : Watch → Prop} {m : Machine} (hP : P.Sits) (room : P.stop + 10 ≤ m.regs.sp.toNat)
  (hcode : m.memory.Carries P) (hip : m.ip = P.addr 0) (hstub : P.Block 0 (stub (P.addr 40)) stubSize)
  (hmain : P.Block 40 [.push .bp, .movReg .bp .sp] 43)
  (hcall : P.Block 43 [.movImm .ax (P.addr 9), .callReg .ax] 48)
  (hf : P.Block 9 [.push .bp, .movReg .bp .sp] 12)
include hP room hcode hip hstub hmain hcall hf

/-- From the start to the branch. -/
theorem follows_branching (rest : ∀ m' : Machine, m'.memory.Carries P → m'.ip = P.addr 12 →
      m'.regs.sp.toNat + 8 = m.regs.sp.toNat → m'.regs.sp = m.regs.sp - 2 - 2 - 2 - 2 →
      m'.regs.bp = m.regs.sp - 2 - 2 - 2 - 2 → m'.memory.readWord (m.regs.sp - 2 - 2) = m.regs.bp →
      (∀ a : UInt16, a.toNat + 8 < m.regs.sp.toNat → m'.memory.read a = m.memory.read a) →
      Follows P n ⟨m', [⟨P.addr 48, m.regs.sp - 2 - 2, m.regs.sp - 2 - 2, m.regs.sp - 2 - 2 - 2 - 2, 0⟩,
        ⟨P.addr 5, m.regs.sp, m.regs.bp, m.regs.sp - 2 - 2, 0⟩]⟩ Q) :
    Follows P (n + 8) ⟨m, []⟩ Q := by
  have h₁ : (m.regs.sp - 2).toNat = m.regs.sp.toNat - 2 :=
    UInt16.toNat_sub_of_le m.regs.sp 2 (show 2 ≤ m.regs.sp.toNat by omega)
  have h₂ : (m.regs.sp - 2 - 2).toNat = (m.regs.sp - 2).toNat - 2 :=
    UInt16.toNat_sub_of_le (m.regs.sp - 2) 2 (show 2 ≤ (m.regs.sp - 2).toNat by omega)
  have hlt := m.regs.sp.toNat_lt
  refine Follows.next hstub hcode hip rfl rfl rfl (show P.stop ≤ m.regs.sp.toNat by omega) fun hb => ?_
  refine Follows.enter hP hb hmain hcode rfl rfl (show P.stop + 4 ≤ m.regs.sp.toNat by omega)
    fun m₁ hcode₁ hip₁ hsp₁ hbp₁ _ hsaved kept₁ => ?_
  have hsp₁ : m₁.regs.sp = m.regs.sp - 2 - 2 := hsp₁
  have hroom : P.stop + 4 ≤ m₁.regs.sp.toNat := by
    rw [hsp₁]
    omega
  refine Follows.next hcall hcode₁ hip₁ rfl rfl rfl (show P.stop ≤ m₁.regs.sp.toNat by omega) fun hb => ?_
  refine Follows.enter hP hb hf hcode₁ rfl rfl hroom fun m₂ hcode₂ hip₂ hsp₂ hbp₂ _ _ kept₂ => ?_
  have hsp₂ : m₂.regs.sp = m₁.regs.sp - 2 - 2 := hsp₂
  have hbp₂ : m₂.regs.bp = m₁.regs.sp - 2 - 2 := hbp₂
  have kept₂ : ∀ a : UInt16, a.toNat + 4 < m₁.regs.sp.toNat ∨ m₁.regs.sp.toNat ≤ a.toNat →
      m₂.memory.read a = m₁.memory.read a := kept₂
  have hbp₁ : m₁.regs.bp = m.regs.sp - 2 - 2 := hbp₁
  show Follows P n ⟨m₂, [⟨P.addr 48, m₁.regs.sp, m₁.regs.bp, m₁.regs.sp - 2 - 2, 0⟩,
    ⟨P.addr 5, m.regs.sp, m.regs.bp, m.regs.sp - 2 - 2, 0⟩]⟩ Q
  rw [hsp₁] at hsp₂ hbp₂ kept₂ ⊢
  rw [hbp₁]
  have h₃ : (m.regs.sp - 2 - 2 - 2).toNat = (m.regs.sp - 2 - 2).toNat - 2 :=
    UInt16.toNat_sub_of_le (m.regs.sp - 2 - 2) 2 (show 2 ≤ (m.regs.sp - 2 - 2).toNat by omega)
  have h₄ : (m.regs.sp - 2 - 2 - 2 - 2).toNat = (m.regs.sp - 2 - 2 - 2).toNat - 2 :=
    UInt16.toNat_sub_of_le (m.regs.sp - 2 - 2 - 2) 2 (show 2 ≤ (m.regs.sp - 2 - 2 - 2).toNat by omega)
  refine rest m₂ hcode₂ hip₂ (by rw [hsp₂]; omega) hsp₂ hbp₂ ?_ fun a ha => ?_
  · rw [Memory.readWord_of_kept (fun a ha => kept₂ a (.inr ha)) (Nat.le_refl _) (by omega)]
    exact hsaved
  · rw [kept₂ a (.inl (by omega))]
    exact kept₁ a (.inl (show a.toNat + 4 < m.regs.sp.toNat by omega))

/-- A branch that is skipped reserves nothing, and the epilogue releases two bytes too many. -/
theorem follows_skipped (hbranch : P.Block 12 [.movImm .ax 0, .test .ax .ax, .jcc .equal 8] 19)
    (hret : P.Block 27 [.movImm .ax 2, .addImm .sp 2, .pop .bp, .ret] 35) :
    Follows P 13 ⟨m, []⟩ fun w => w.machine.memory.Carries P ∧ w.machine.ip = P.addr 33 ∧
      w.machine.regs.sp = m.regs.sp - 2 - 2 - 2 ∧ w.machine.memory.readWord (m.regs.sp - 2 - 2) = m.regs.bp ∧
      (∀ a : UInt16, a.toNat + 8 < m.regs.sp.toNat → w.machine.memory.read a = m.memory.read a) ∧
      w.live.head? = some ⟨P.addr 48, m.regs.sp - 2 - 2, m.regs.sp - 2 - 2, m.regs.sp - 2 - 2 - 2 - 2, 0⟩ := by
  refine follows_branching hP room hcode hip hstub hmain hcall hf
    fun m' hcode' hip' hlow hsp' _ hsaved kept => ?_
  have hroom : P.stop ≤ m'.regs.sp.toNat := by omega
  refine Follows.guard hbranch (l := 27) rfl hcode' hip' hroom fun m₁ hmemory hsp₁ hip₁ => ?_
  rw [← hmemory] at hcode' hsaved kept
  rw [← hsp₁] at hroom hsp'
  refine Follows.next hret hcode' hip₁ rfl rfl rfl hroom fun hb => ?_
  refine Follows.next hb hcode' rfl rfl rfl rfl hroom fun hb => ?_
  refine ⟨hcode', rfl, ?_, hsaved, kept, rfl⟩
  show m₁.regs.sp + 2 = _
  rw [hsp', UInt16.sub_add_cancel]

/-- A branch that is taken reserves what the epilogue releases. -/
theorem follows_taken (hbranch : P.Block 12 [.movImm .ax 1, .test .ax .ax, .jcc .equal 8] 19)
    (hbody : P.Block 19 [.subImm .sp 2, .movImm .ax (P.addr 27), .jmpReg .ax] 27)
    (hret : P.Block 27 [.movImm .ax 2, .addImm .sp 2, .pop .bp, .ret] 35) :
    Follows P 16 ⟨m, []⟩ fun w => w.machine.memory.Carries P ∧ w.machine.ip = P.addr 33 ∧
      P.stop ≤ w.machine.regs.sp.toNat ∧ w.machine.regs.sp = m.regs.sp - 2 - 2 - 2 - 2 ∧
      w.live.head? = some ⟨P.addr 48, m.regs.sp - 2 - 2, m.regs.sp - 2 - 2, m.regs.sp - 2 - 2 - 2 - 2, 2⟩ := by
  refine follows_branching hP room hcode hip hstub hmain hcall hf fun m' hcode' hip' hlow hsp' _ _ _ => ?_
  have hroom : P.stop + 2 ≤ m'.regs.sp.toNat := by omega
  refine Follows.guard hbranch (l := 27) rfl hcode' hip' (by omega) fun m₁ hmemory hsp₁ hip₁ => ?_
  rw [← hmemory] at hcode'
  rw [← hsp₁] at hroom hsp'
  have hdown : (m₁.regs.sp - 2).toNat = m₁.regs.sp.toNat - 2 :=
    UInt16.toNat_sub_of_le m₁.regs.sp 2 (show 2 ≤ m₁.regs.sp.toNat by omega)
  have hroom' : P.stop ≤ (m₁.regs.sp - 2).toNat := by omega
  refine Follows.next hbody hcode' hip₁ rfl rfl rfl (show P.stop ≤ m₁.regs.sp.toNat by omega) fun hb => ?_
  refine Follows.next hb hcode' rfl rfl rfl rfl hroom' fun hb => ?_
  refine Follows.next hb hcode' rfl rfl rfl rfl hroom' fun _ => ?_
  refine Follows.next hret hcode' rfl rfl rfl rfl hroom' fun hb => ?_
  refine Follows.next hb hcode' rfl rfl rfl rfl hroom' fun hb => ?_
  have hup : m₁.regs.sp - 2 + 2 = m₁.regs.sp := UInt16.sub_add_cancel _ _
  refine ⟨hcode', rfl, ?_, hup.trans hsp', rfl⟩
  show P.stop ≤ (m₁.regs.sp - 2 + 2).toNat
  rw [hup]
  omega

end

theorem Memory.decode_zero {mem : Memory} (h : mem.read 0 = 0) : mem.decode 0 = .error (.opcode 0 0) := by
  simp only [decode, h]
  rfl

/-- The end of a run that returns to address zero. -/
theorem Machine.after_return_zero {m : Machine} {i j : Nat} (hb : P.Block i [.pop .bp, .ret] j)
    (hm : m.memory.Carries P) (hip : m.ip = P.addr i) (room : P.stop ≤ m.regs.sp.toNat)
    (ceiling : m.regs.sp.toNat + 4 < 65536) (hword : m.memory.readWord (m.regs.sp + 2) = 0)
    (hzero : m.memory.read 0 = 0) :
    (∃ m', m.after 2 = some m' ∧ m'.step = .faulted (.opcode 0 0)) ∧
      ∀ k m', m.after k = some m' → P.stop ≤ m'.regs.sp.toNat := by
  obtain ⟨hpop, hb⟩ := hb.cons
  obtain ⟨hret, -⟩ := hb.cons
  have two : (m.regs.sp + 2).toNat = m.regs.sp.toNat + 2 :=
    Word.toNat_add rfl (show m.regs.sp.toNat + 2 < 65536 by omega)
  have four : (m.regs.sp + 2 + 2).toNat = (m.regs.sp + 2).toNat + 2 :=
    Word.toNat_add rfl (show (m.regs.sp + 2).toNat + 2 < 65536 by omega)
  obtain ⟨m₁, first, hsp₁, hmemory₁, hip₁⟩ : ∃ m₁, m.step = .running m₁ ∧ m₁.regs.sp = m.regs.sp + 2 ∧
      m₁.memory = m.memory ∧ m₁.ip = P.addr (i + 1) := ⟨_, Machine.step_of_holds hm hpop hip rfl, rfl, rfl, rfl⟩
  obtain ⟨m₂, second, hsp₂, hmemory₂, hip₂⟩ : ∃ m₂, m₁.step = .running m₂ ∧
      m₂.regs.sp = m₁.regs.sp + 2 ∧ m₂.memory = m₁.memory ∧ m₂.ip = m₁.memory.readWord m₁.regs.sp :=
    ⟨_, Machine.step_of_holds (hmemory₁ ▸ hm) hret hip₁ rfl, rfl, rfl, rfl⟩
  have third : m₂.step = .faulted (.opcode 0 0) := by
    rw [hmemory₁, hsp₁, hword] at hip₂
    rw [Machine.step, hip₂, hmemory₂, hmemory₁, Memory.decode_zero hzero]
  refine ⟨⟨m₂, (Machine.after_succ first 1).trans (Machine.after_succ second 0), third⟩, fun k m' hk => ?_⟩
  rcases k with _ | _ | _ | k
  · obtain rfl : m = m' := Option.some.inj hk
    exact room
  · obtain rfl : m₁ = m' := Option.some.inj ((Machine.after_succ first 0).symm.trans hk)
    rw [hsp₁]
    omega
  · rw [Machine.after_succ first, Machine.after_succ second] at hk
    obtain rfl : m₂ = m' := Option.some.inj hk
    rw [hsp₂, hsp₁]
    omega
  · rw [Machine.after_succ first, Machine.after_succ second, Machine.after, third] at hk
    cases hk

namespace Program

/-- Where the code of `branching` stands. -/
theorem branching_blocks (guard : Int) (hg : guard = 0 ∨ guard = 1) :
    let P := (branching guard).placement 0x100 ((branching guard).code 0x100 "main")
    P.Block 0 (stub (P.addr 40)) stubSize ∧ P.Block 40 [.push .bp, .movReg .bp .sp] 43 ∧
      P.Block 43 [.movImm .ax (P.addr 9), .callReg .ax] 48 ∧ P.Block 9 [.push .bp, .movReg .bp .sp] 12 ∧
      P.Block 12 [.movImm .ax (UInt16.ofInt guard), .test .ax .ax, .jcc .equal 8] 19 ∧
      P.Block 19 [.subImm .sp 2, .movImm .ax (P.addr 27), .jmpReg .ax] 27 ∧
      P.Block 27 [.movImm .ax 2, .addImm .sp 2, .pop .bp, .ret] 35 := by
  intro P
  rcases hg with rfl | rfl
  · refine ⟨.of_drop ?_ ?_ ?_, .of_drop ?_ ?_ ?_, .of_drop ?_ ?_ ?_, .of_drop ?_ ?_ ?_, .of_drop ?_ ?_ ?_,
      .of_drop ?_ ?_ ?_, .of_drop ?_ ?_ ?_⟩ <;> decide +kernel
  · refine ⟨.of_drop ?_ ?_ ?_, .of_drop ?_ ?_ ?_, .of_drop ?_ ?_ ?_, .of_drop ?_ ?_ ?_, .of_drop ?_ ?_ ?_,
      .of_drop ?_ ?_ ?_, .of_drop ?_ ?_ ?_⟩ <;> decide +kernel

theorem branching_compile (guard : Int) (hg : guard = 0 ∨ guard = 1) :
    (branching guard).compile {} = .ok ((branching guard).code 0x100 "main").toArray := by
  rcases hg with rfl | rfl
  · exact compile_eq_code (by decide +kernel) (by decide +kernel) (by decide +kernel)
  · exact compile_eq_code (by decide +kernel) (by decide +kernel) (by decide +kernel)

end Program

/-! ## Epilogues -/

theorem Word.toNat_of_toInt {v : Int16} {n : Nat} (h : v.toInt = n) : v.toUInt16.toNat = n := by
  have signed := Word.toInt_toInt16 v.toUInt16
  rw [Int16.toInt16_toUInt16, h] at signed
  have hlt := v.toUInt16.toNat_lt
  split at signed <;> omega

/-- What an epilogue finds in a run whose stack has stayed above the image so far. `releases` has the bytes that it
    releases, two for every declaration above it in its function; `reserved` counts those of the declarations that
    its activation has run. Unless the declarations of the program are flat, the run must have been `Fine` as well:
    every earlier epilogue found `sp` at its prologue's `bp`, and every variable stored lay behind the image. Where
    it was not, an activation has already gone back to a wrong address or written over code. -/
theorem Program.epilogue_releases (p : Program) (image : Array UInt8) (h : p.compile {} = .ok image) (n : Nat)
    (m : Machine) (run : (Machine.load image).after n = some m)
    (stack : ∀ k ≤ n, ∀ m', (Machine.load image).after k = some m' → 0x100 + image.size ≤ m'.regs.sp.toNat)
    (fine : p.Flat ∨ ∀ k < n, ∀ v, (Watch.load image).after k = some v → v.Fine (0x100 + image.size))
    (next : UInt16) (pop : m.memory.decode m.ip = .ok (.pop .bp, next)) :
    ∃ c rest i j bytes, ∃ released : Int16, (Watch.load image).after n = some ⟨m, c :: rest⟩ ∧
      m.regs.bp = c.base ∧ Release.epilogue i bytes ∈ p.releases ∧ released.toInt = bytes ∧
      (p.placement 0x100 image.toList).Block i [.addImm .sp released, .pop .bp, .ret] j ∧
      m.ip = (p.placement 0x100 image.toList).addr (i + (Instr.addImm .sp released).size) ∧
      c.reserved.toNat ≤ bytes ∧ m.regs.sp + c.reserved = c.base + released.toUInt16 ∧
      (m.regs.sp = c.base ↔ c.reserved.toNat = bytes) ∧
      (m.regs.sp = c.base →
        ∃ m', m.after 2 = some m' ∧ m'.ip = c.back ∧ m'.regs.bp = c.bp ∧ m'.regs.sp = c.sp) ∧
      (p.Flat → m.regs.sp = c.base) := by
  have hP := sits_of_compile h
  obtain ⟨hl, -, hh⟩ := holds_of_compile h
  have calls := callsSafe hP hl ((wellFormed_iff p _).1 (of_compile h).1).1 rfl hh
  have safe := Program.safe hP (at_of_compile h) calls rfl (carries_of_compile h) (n + 1)
  obtain ⟨w, hw, rfl⟩ := Watch.exists_of_machine (Watch.load image) run
  have good := safe.good hw
    (fun k hk v hv => stack k hk v.machine (Watch.machine_of_after (Watch.load image) hv)) fine pop
  obtain ⟨c, rest, hlive, rel⟩ := good.releases rfl
  obtain ⟨i, j, bytes, released, hmem, hbytes, hb, hip, hmost, hsp⟩ := rel.sp
  have hreleased := Word.toNat_of_toInt hbytes
  refine ⟨c, rest, i, j, bytes, released, ?_, rel.bp, hmem, hbytes, hb, hip, hmost, hsp, ⟨fun e => ?_, fun e => ?_⟩,
    rel.returns, fun flat => ?_⟩
  · rw [hw, ← hlive]
  · rw [e] at hsp
    rw [(UInt16.add_right_inj _).1 hsp, hreleased]
  · rw [UInt16.toNat_inj.1 (e.trans hreleased.symm)] at hsp
    exact (UInt16.add_left_inj _).1 hsp
  · exact good.fine flat c (by rw [hlive]; rfl)

/-- A declaration in a branch, run: two bytes are reserved and two released. -/
theorem Program.branching_releases :
    ∃ image m c rest i, (branching 1).compile {} = .ok image ∧ ¬ (branching 1).Flat ∧
      (Watch.load image).after 16 = some ⟨m, c :: rest⟩ ∧ Release.epilogue i 2 ∈ (branching 1).releases ∧
      c.reserved = 2 ∧ m.regs.sp = c.base ∧
      ∃ m', m.after 2 = some m' ∧ m'.ip = c.back ∧ m'.regs.bp = c.bp ∧ m'.regs.sp = c.sp := by
  have h := branching_compile 1 (.inr rfl)
  have hP := sits_of_compile h
  have hstop : ((branching 1).placement 0x100 ((branching 1).code 0x100 "main")).stop = 317 := by decide +kernel
  obtain ⟨hstub, hmain, hcall, hf, hbranch, hbody, hret⟩ := branching_blocks 1 (.inr rfl)
  have follows := follows_taken hP (by rw [hstop]; exact Nat.le_of_ble_eq_true rfl) (carries_of_compile h) rfl hstub
    hmain hcall hf hbranch hbody hret
  obtain ⟨w, hw, hcarries, hip, -, hsp, hlive⟩ := follows.after
  obtain ⟨-, hb⟩ := hret.cons
  obtain ⟨-, hb⟩ := hb.cons
  obtain ⟨c, rest, i, -, bytes, -, hlast, -, hmem, -, -, -, -, -, balanced, returns, -⟩ :=
    epilogue_releases (branching 1) _ h 16 w.machine (Watch.machine_of_after (Watch.load _) hw)
      (fun k hk m hm => follows.above (fun _ q => q.2.2.1) hk hm)
      (.inr fun k hk v hv => (follows.steady hk hv).fine) _ (Machine.decode_of_holds hcarries hb.cons.1 hip rfl)
  have live : w.live = c :: rest := congrArg Watch.live (Option.some.inj (hw.symm.trans hlast))
  rw [live] at hlive
  obtain rfl := Option.some.inj hlive
  obtain rfl : 2 = bytes := balanced.1 hsp
  exact ⟨_, w.machine, _, rest, i, h, by decide, hlast, hmem, rfl, hsp, returns hsp⟩

/-- With the branch skipped, the epilogue of `f` leaves the stack two bytes too high, takes the caller's frame
    pointer for the return address and runs into address zero. -/
theorem Program.skipped_declaration_unbalanced :
    ∃ image w c, (branching 0).compile {} = .ok image ∧ (Watch.load image).after 13 = some w ∧
      w.live.head? = some c ∧ (∃ next, w.machine.memory.decode w.machine.ip = .ok (.pop .bp, next)) ∧
      c.reserved = 0 ∧ w.machine.regs.sp = c.base + 2 ∧
      (∀ k m, (Machine.load image).after k = some m → 0x100 + image.size ≤ m.regs.sp.toNat) ∧
      Machine.run image = .faulted (.opcode 0 0) := by
  have h := branching_compile 0 (.inl rfl)
  have hP := sits_of_compile h
  have hstop : ((branching 0).placement 0x100 ((branching 0).code 0x100 "main")).stop = 317 := by decide +kernel
  obtain ⟨hstub, hmain, hcall, hf, hbranch, -, hret⟩ := branching_blocks 0 (.inl rfl)
  have follows := follows_skipped hP (by rw [hstop]; exact Nat.le_of_ble_eq_true rfl) (carries_of_compile h) rfl hstub
    hmain hcall hf hbranch hret
  obtain ⟨w, hw, hcarries, hip, hsp, hword, kept, hlive⟩ := follows.after
  obtain ⟨-, hb⟩ := hret.cons
  obtain ⟨-, hb⟩ := hb.cons
  have hsp : w.machine.regs.sp = 0xFFF8 := hsp
  have hnat : w.machine.regs.sp.toNat = 65528 := by rw [hsp]; rfl
  have hzero : w.machine.memory.read 0 = 0 := by
    rw [kept 0 (Nat.le_of_ble_eq_true rfl)]
    exact Memory.read_ofBytes _ _ 0
  obtain ⟨⟨m', hlast, hfault⟩, high⟩ := Machine.after_return_zero hb hcarries hip (by omega) (by omega)
    (by rw [hsp]; exact hword) hzero
  have hafter := Watch.machine_of_after (Watch.load _) hw
  refine ⟨_, w, _, h, hw, hlive, ⟨_, Machine.decode_of_holds hcarries hb.cons.1 hip rfl⟩, rfl, hsp, fun k m hk => ?_,
    ?_⟩
  · rcases Nat.lt_or_ge k 13 with hlt | hge
    · obtain ⟨v, hv, rfl⟩ := Watch.exists_of_machine (Watch.load _) hk
      exact (follows.steady hlt hv).above
    · obtain ⟨d, rfl⟩ := Nat.exists_eq_add_of_le hge
      exact high d m ((Machine.after_add hafter d).symm.trans hk)
  · have fits : 0x100 + ((branching 0).code 0x100 "main").toArray.size ≤ 65536 := hP.segment
    rw [Machine.run, if_pos fits]
    exact Machine.runFor_of_faulted ((Machine.after_add hafter 2).trans hlast) hfault (by decide)

end DotCom
