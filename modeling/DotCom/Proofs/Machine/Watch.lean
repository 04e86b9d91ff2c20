/-
  DotCom.Proofs.Machine.Watch — a machine that is watched: beside it stands, for each call that has
  not returned, what its caller must find again. The machine does not look at it.

  - `Watch.machine_after`: a watched machine runs as it would unwatched.
  - `Safe`: along the next steps every epilogue is as `Watch.Releases` says. It is shown by running
    code (`Safe.exec`, `Safe.next`), with what follows the code as a hypothesis; so it speaks about
    runs that fault or never end as well.
  - `Follows`: a run of known length that passes only states where the stack is above the image and
    every epilogue finds `sp` where its prologue left it.
-/

import DotCom.Proofs.Machine.Blocks

namespace DotCom

/-- A call that has not returned. -/
structure Invocation where
  /-- The address behind the call. -/
  back : UInt16
  /-- `sp` at the call, before the return address is pushed. -/
  sp : UInt16
  /-- `bp` at the call. -/
  bp : UInt16
  /-- What the prologue sets `bp` to. -/
  base : UInt16 := 0
  /-- The bytes that declarations have reserved. -/
  reserved : UInt16 := 0
  deriving DecidableEq, Repr

/-- What an operation does to the open calls. `next` is the address behind it. -/
def Operation.track (m : Machine) (next : UInt16) (live : List Invocation) : Operation → List Invocation
  | .call _ => { back := next, sp := m.regs.sp, bp := m.regs.bp } :: live
  | .move (.reg .bp) (.place (.reg .sp)) => live.modifyHead fun c => { c with base := m.regs.sp }
  | .arith .sub (.reg .sp) (.imm v) => live.modifyHead fun c => { c with reserved := c.reserved + v }
  | .ret => live.tail
  | _ => live

/-- A machine and its open calls, the innermost first. -/
structure Watch where
  machine : Machine
  live : List Invocation := []

namespace Watch

def step (w : Watch) : Option Watch :=
  match w.machine.memory.decode w.machine.ip, w.machine.step with
  | .ok (op, next), .running m => some ⟨m, op.track w.machine next w.live⟩
  | _, _ => none

/-- The watched machine after `n` steps, if it gets that far. -/
def after : Nat → Watch → Option Watch
  | 0, w => some w
  | n + 1, w => w.step.bind (after n)

/-- An image that has been loaded. -/
def load (image : Array UInt8) : Watch := { machine := .load image }

theorem step_eq_some {w : Watch} {op : Operation} {next : UInt16} {m : Machine}
    (hd : w.machine.memory.decode w.machine.ip = .ok (op, next)) (hs : w.machine.step = .running m) :
    w.step = some ⟨m, op.track w.machine next w.live⟩ := by
  rw [step, hd, hs]

theorem step_cases {w w' : Watch} (h : w.step = some w') :
    ∃ op next m, w.machine.memory.decode w.machine.ip = .ok (op, next) ∧ w.machine.step = .running m ∧
      w' = ⟨m, op.track w.machine next w.live⟩ := by
  unfold step at h
  split at h
  · rename_i op next m hd hs
    exact ⟨op, next, m, hd, hs, (Option.some.inj h).symm⟩
  · exact nomatch h

/-- Watching does not change a run. -/
theorem machine_after (n : Nat) (w : Watch) : (w.after n).map machine = w.machine.after n := by
  induction n generalizing w with
  | zero => rfl
  | succ n ih =>
    have stopped (h : ∀ m, w.machine.step ≠ .running m) : w.step = none := by
      refine Option.eq_none_iff_forall_ne_some.2 fun w' hw => ?_
      obtain ⟨op, next, m, -, hm, -⟩ := step_cases hw
      exact h m hm
    rw [after, Machine.after]
    cases hm : w.machine.step with
    | running m =>
      have hd := hm
      unfold Machine.step at hd
      split at hd
      · cases hd
      · rename_i op next hd'
        rw [step_eq_some hd' hm]
        exact ih _
    | exited _ _ | faulted _ | endless =>
      rw [stopped (by simp [hm])]
      rfl

theorem machine_of_after {n : Nat} (w : Watch) {w' : Watch} (h : w.after n = some w') :
    w.machine.after n = some w'.machine := by
  rw [← machine_after, h]
  rfl

/-- Every state of a machine is that of a watched one. -/
theorem exists_of_machine {n : Nat} (w : Watch) {m : Machine} (h : w.machine.after n = some m) :
    ∃ w', w.after n = some w' ∧ w'.machine = m :=
  Option.map_eq_some_iff.1 ((machine_after n w).trans h)

end Watch

/-! ## Epilogues -/

/-- Operations that no rule here speaks about. -/
def Operation.Plain : Operation → Bool
  | .pop .bp => false
  | .move (.frame _) _ => false
  | _ => true

/-- What is asked of the next operation for the calls to stay as they are recorded: `pop bp` finds
    `sp` where the prologue left it, and a variable that is stored lies behind the image. -/
def Operation.Fine (stop : Nat) (w : Watch) : Operation → Prop
  | .pop .bp => ∀ c ∈ w.live.head?, w.machine.regs.sp = c.base
  | .move (.frame disp) _ => (stop : Int) ≤ w.machine.regs.bp.toNat + disp.toInt16.toInt
  | _ => True

theorem Operation.fine_of_plain {op : Operation} (h : op.Plain) (stop : Nat) (w : Watch) : op.Fine stop w := by
  unfold Fine
  split
  · exact nomatch h
  · exact nomatch h
  · trivial

def Watch.Fine (stop : Nat) (w : Watch) : Prop :=
  ∀ op next, w.machine.memory.decode w.machine.ip = .ok (op, next) → op.Fine stop w

/-- What the code that runs has to release: `epilogue` lists the offsets of its epilogues and the bytes for each.
    Under `flat` every declaration above an epilogue is run before it. -/
structure Budget where
  epilogue (pos bytes : Nat) : Prop
  flat : Prop

/-- In front of the `pop bp` of an epilogue: how far `sp` is off, and what lies on the stack. -/
structure Watch.Releases (P : Placement) (B : Budget) (w : Watch) (c : Invocation) : Prop where
  bp : w.machine.regs.bp = c.base
  sp : ∃ i j bytes, ∃ released : Int16, B.epilogue i bytes ∧ released.toInt = bytes ∧
    P.Block i [.addImm .sp released, .pop .bp, .ret] j ∧
    w.machine.ip = P.addr (i + (Instr.addImm .sp released).size) ∧
    c.reserved.toNat ≤ bytes ∧ w.machine.regs.sp + c.reserved = c.base + released.toUInt16
  saved : w.machine.memory.readWord c.base = c.bp
  back : w.machine.memory.readWord (c.base + 2) = c.back
  caller : c.sp = c.base + 4
  code : w.machine.memory.Carries P

/-- What holds where the next operation is `op`. Under `flat` nothing need be asked. -/
structure Watch.Good (P : Placement) (B : Budget) (w : Watch) (op : Operation) : Prop where
  releases : op = .pop .bp → ∃ c rest, w.live = c :: rest ∧ w.Releases P B c
  fine : B.flat → op.Fine P.stop w

/-- For `n` steps, as long as the stack is above the image and nothing goes wrong, all is good. -/
def Safe (P : Placement) (B : Budget) : Nat → Watch → Prop
  | 0, _ => True
  | n + 1, w => P.stop ≤ w.machine.regs.sp.toNat →
    ∀ op next, w.machine.memory.decode w.machine.ip = .ok (op, next) → w.Good P B op ∧
      (op.Fine P.stop w → ∀ m, { w.machine with ip := next }.perform w.machine.ip op = .running m →
        Safe P B n ⟨m, op.track w.machine next w.live⟩)

namespace Safe

variable {P : Placement} {B : Budget} {n i j : Nat} {w : Watch}

theorem mono {k : Nat} (h : Safe P B n w) (hk : k ≤ n) : Safe P B k w := by
  induction k generalizing n w with
  | zero => trivial
  | succ k ih =>
    cases n with
    | zero => exact absurd hk (Nat.not_succ_le_zero k)
    | succ n =>
      intro room op next hd
      obtain ⟨good, rest⟩ := h room op next hd
      exact ⟨good, fun fine m hm => ih (rest fine m hm) (Nat.le_of_succ_le_succ hk)⟩

/-- A stack that has fallen into the image is nothing to speak about. -/
theorem above (h : P.stop ≤ w.machine.regs.sp.toNat → Safe P B n w) : Safe P B n w := by
  cases n with
  | zero => trivial
  | succ n => exact fun room => h room room

/-- One operation. What follows it has one step less to go. -/
theorem of_decode {op : Operation} {next : UInt16} (hd : w.machine.memory.decode w.machine.ip = .ok (op, next))
    (good : P.stop ≤ w.machine.regs.sp.toNat → w.Good P B op)
    (rest : ∀ k m, n = k + 1 → P.stop ≤ w.machine.regs.sp.toNat → op.Fine P.stop w →
      { w.machine with ip := next }.perform w.machine.ip op = .running m →
      Safe P B k ⟨m, op.track w.machine next w.live⟩) : Safe P B n w := by
  cases n with
  | zero => trivial
  | succ n =>
    intro room op' next' hd'
    rw [hd, Except.ok.injEq, Prod.mk.injEq] at hd'
    obtain ⟨rfl, rfl⟩ := hd'
    exact ⟨good room, fun fine m hm => rest n m rfl room fine hm⟩

/-- One instruction of a block. -/
theorem exec {instr : Instr} {is : List Instr} {op : Operation} (hb : P.Block i (instr :: is) j)
    (hm : w.machine.memory.Carries P) (hip : w.machine.ip = P.addr i) (ho : instr.operation? = some op)
    (good : P.stop ≤ w.machine.regs.sp.toNat → w.Good P B op)
    (rest : ∀ k m, n = k + 1 → P.stop ≤ w.machine.regs.sp.toNat → op.Fine P.stop w →
      { w.machine with ip := P.addr (i + instr.size) }.perform w.machine.ip op = .running m →
      P.Block (i + instr.size) is j →
      Safe P B k ⟨m, op.track w.machine (P.addr (i + instr.size)) w.live⟩) : Safe P B n w := by
  obtain ⟨hh, his⟩ := hb.cons
  exact of_decode (Machine.decode_of_holds hm hh hip ho) good fun k m hk room fine hr => rest k m hk room fine hr his

/-- An instruction that stores no variable and is no `pop bp`, and cannot fail. -/
theorem next {instr : Instr} {is : List Instr} {op : Operation} {m : Machine} (hb : P.Block i (instr :: is) j)
    (hm : w.machine.memory.Carries P) (hip : w.machine.ip = P.addr i) (ho : instr.operation? = some op)
    (plain : op.Plain) (hr : { w.machine with ip := P.addr (i + instr.size) }.perform w.machine.ip op = .running m)
    (rest : P.stop ≤ w.machine.regs.sp.toNat → P.Block (i + instr.size) is j →
      Safe P B n ⟨m, op.track w.machine (P.addr (i + instr.size)) w.live⟩) : Safe P B n w := by
  have notPop : op = .pop .bp → False := by
    rintro rfl
    exact nomatch plain
  refine exec hb hm hip ho (fun _ => ⟨fun h => (notPop h).elim, fun _ => Operation.fine_of_plain plain _ _⟩)
    fun k m' hk room _ hr' his => ?_
  rw [hr, Step.running.injEq] at hr'
  subst hr'
  exact (rest room his).mono (hk ▸ Nat.le_succ k)

/-- A conditional jump, taken or not. -/
theorem jcc {cond : Cond} {rel : Int8} {is : List Instr} {m : Machine} {live : List Invocation}
    (hb : P.Block i (.jcc cond rel :: is) j) (hm : m.memory.Carries P) (hip : m.ip = P.addr i)
    (taken : P.Block (i + 2) is j → Safe P B n ⟨{ m with ip := P.addr (i + 2) + Word.signExtend rel.toUInt8 }, live⟩)
    (passed : P.Block (i + 2) is j → Safe P B n ⟨{ m with ip := P.addr (i + 2) }, live⟩) : Safe P B n ⟨m, live⟩ := by
  cases hc : cond.holds m.flags with
  | true => exact next hb hm hip rfl rfl (congrArg Step.running (if_pos hc)) fun _ => taken
  | false => exact next hb hm hip rfl rfl (congrArg Step.running (if_neg (Bool.eq_false_iff.1 hc))) fun _ => passed

/-- What is safe is good as long as it runs. -/
theorem good {w' : Watch} {op : Operation} {next : UInt16} (h : Safe P B (n + 1) w) (hw : w.after n = some w')
    (room : ∀ k ≤ n, ∀ v, w.after k = some v → P.stop ≤ v.machine.regs.sp.toNat)
    (fine : B.flat ∨ ∀ k < n, ∀ v, w.after k = some v → v.Fine P.stop)
    (hd : w'.machine.memory.decode w'.machine.ip = .ok (op, next)) : w'.Good P B op := by
  induction n generalizing w with
  | zero =>
    obtain rfl : w = w' := Option.some.inj hw
    exact (h (room 0 (Nat.le_refl 0) w rfl) op next hd).1
  | succ n ih =>
    rw [Watch.after, Option.bind_eq_some_iff] at hw
    obtain ⟨w₁, hs, hw⟩ := hw
    have later (k : Nat) : w.after (k + 1) = w₁.after k := by rw [Watch.after, hs, Option.bind_some]
    obtain ⟨op₁, next₁, m, hd₁, hm, hw₁⟩ := Watch.step_cases hs
    obtain ⟨here, rest⟩ := h (room 0 (Nat.zero_le _) w rfl) op₁ next₁ hd₁
    have fine₁ : op₁.Fine P.stop w := fine.elim here.fine fun h => h 0 (Nat.succ_pos n) w rfl op₁ next₁ hd₁
    have hr := hm
    rw [Machine.step, hd₁] at hr
    have safe : Safe P B (n + 1) w₁ := hw₁ ▸ rest fine₁ m hr
    refine ih safe hw (fun k hk v hv => ?_) (fine.imp_right fun h k hk v hv => ?_)
    · exact room (k + 1) (Nat.succ_le_succ hk) v (later k ▸ hv)
    · exact h (k + 1) (Nat.succ_lt_succ hk) v (later k ▸ hv)

end Safe

/-! ## Single runs -/

/-- A state that a run may pass. -/
structure Watch.Steady (P : Placement) (w : Watch) : Prop where
  above : P.stop ≤ w.machine.regs.sp.toNat
  fine : w.Fine P.stop

/-- A run of `n` steps that passes steady states and comes to a state with the property `Q`. -/
def Follows (P : Placement) : Nat → Watch → (Watch → Prop) → Prop
  | 0, w, Q => Q w
  | n + 1, w, Q => w.Steady P ∧ ∃ w', w.step = some w' ∧ Follows P n w' Q

namespace Follows

variable {P : Placement} {Q : Watch → Prop} {n i j : Nat} {w : Watch}

theorem of_decode {op : Operation} {m : Machine} {next : UInt16}
    (hd : w.machine.memory.decode w.machine.ip = .ok (op, next)) (fine : op.Fine P.stop w)
    (hr : { w.machine with ip := next }.perform w.machine.ip op = .running m) (room : P.stop ≤ w.machine.regs.sp.toNat)
    (rest : Follows P n ⟨m, op.track w.machine next w.live⟩ Q) : Follows P (n + 1) w Q := by
  have hs : w.machine.step = .running m := by
    rw [Machine.step, hd]
    exact hr
  refine ⟨⟨room, fun op' next' hd' => ?_⟩, _, Watch.step_eq_some hd hs, rest⟩
  rw [hd, Except.ok.injEq, Prod.mk.injEq] at hd'
  exact hd'.1 ▸ fine

theorem exec {instr : Instr} {is : List Instr} {op : Operation} {m : Machine} (hb : P.Block i (instr :: is) j)
    (hm : w.machine.memory.Carries P) (hip : w.machine.ip = P.addr i) (ho : instr.operation? = some op)
    (fine : op.Fine P.stop w)
    (hr : { w.machine with ip := P.addr (i + instr.size) }.perform w.machine.ip op = .running m)
    (room : P.stop ≤ w.machine.regs.sp.toNat)
    (rest : P.Block (i + instr.size) is j →
      Follows P n ⟨m, op.track w.machine (P.addr (i + instr.size)) w.live⟩ Q) : Follows P (n + 1) w Q := by
  obtain ⟨hh, his⟩ := hb.cons
  exact of_decode (Machine.decode_of_holds hm hh hip ho) fine hr room (rest his)

theorem next {instr : Instr} {is : List Instr} {op : Operation} {m : Machine} (hb : P.Block i (instr :: is) j)
    (hm : w.machine.memory.Carries P) (hip : w.machine.ip = P.addr i) (ho : instr.operation? = some op)
    (plain : op.Plain) (hr : { w.machine with ip := P.addr (i + instr.size) }.perform w.machine.ip op = .running m)
    (room : P.stop ≤ w.machine.regs.sp.toNat)
    (rest : P.Block (i + instr.size) is j →
      Follows P n ⟨m, op.track w.machine (P.addr (i + instr.size)) w.live⟩ Q) : Follows P (n + 1) w Q :=
  exec hb hm hip ho (Operation.fine_of_plain plain _ _) hr room rest

/-- The first step of a call of the operating system. -/
theorem dosCall {function : DosFunction} {is : List Instr} {m : Machine} {live : List Invocation}
    (hb : P.Block i (.dosCall function :: is) j) (hm : m.memory.Carries P) (hip : m.ip = P.addr i)
    (room : P.stop ≤ m.regs.sp.toNat)
    (rest : ∀ m' : Machine, m'.memory = m.memory → m'.regs.sp = m.regs.sp → m'.regs.bp = m.regs.bp →
      m'.regs.dx = m.regs.dx →
      Word.high m'.regs.ax = function.number → m'.memory.decode m'.ip = .ok (.dos, P.addr (i + 4)) →
      P.Block (i + 4) is j → Follows P n ⟨m', live⟩ Q) : Follows P (n + 1) ⟨m, live⟩ Q := by
  obtain ⟨hh, his⟩ := hb.cons
  obtain ⟨first, second⟩ := Memory.decode_dosCall (hm.shows hh)
  rw [← hip] at first
  refine of_decode first trivial rfl room (rest _ rfl rfl rfl rfl (Word.high_ofBytes _ _) ?_ his)
  rw [P.addr_add]
  show m.memory.decode (m.ip + 2) = _
  rw [hip]
  exact second

/-- The guard of a branch that is a number. -/
theorem guard {v : UInt16} {rel : Int8} {l : Nat} {m : Machine} {live : List Invocation}
    (hb : P.Block i [.movImm .ax v, .test .ax .ax, .jcc .equal rel] j) (hl : (l : Int) = j + rel.toInt)
    (hm : m.memory.Carries P) (hip : m.ip = P.addr i) (room : P.stop ≤ m.regs.sp.toNat)
    (rest : ∀ m' : Machine, m'.memory = m.memory → m'.regs.sp = m.regs.sp → m'.ip = P.addr (if v = 0 then l else j) →
      Follows P n ⟨m', live⟩ Q) : Follows P (n + 3) ⟨m, live⟩ Q := by
  have zero : (Flags.ofResult (v &&& v)).zero = (v == 0) := by
    rw [UInt16.and_self]
    rfl
  refine next hb hm hip rfl rfl rfl room fun hb => ?_
  refine next hb hm rfl rfl rfl rfl room fun hb => ?_
  by_cases hv : v = 0
  · have taken : Cond.equal.holds (Flags.ofResult (v &&& v)) = true := zero.trans (beq_iff_eq.2 hv)
    refine next hb hm rfl rfl rfl (congrArg Step.running (if_pos taken)) room fun hb => rest _ rfl rfl ?_
    rw [if_pos hv, ← P.addr_add_signExtend hl, ← hb.nil]
  · have passed : ¬ Cond.equal.holds (Flags.ofResult (v &&& v)) = true := fun h => hv (beq_iff_eq.1 (zero.symm.trans h))
    refine next hb hm rfl rfl rfl (congrArg Step.running (if_neg passed)) room fun hb => rest _ rfl rfl ?_
    rw [if_neg hv]
    exact congrArg P.addr hb.nil

/-- A call and the prologue that it comes to. -/
theorem enter {start : Nat} {is : List Instr} {m : Machine} {live : List Invocation} (hP : P.Sits)
    (hcall : P.Block i (.callReg .ax :: is) j) (hstart : P.Block start [.push .bp, .movReg .bp .sp] (start + 3))
    (hcode : m.memory.Carries P) (hip : m.ip = P.addr i) (hax : m.regs.ax = P.addr start)
    (room : P.stop + 4 ≤ m.regs.sp.toNat)
    (rest : ∀ m' : Machine, m'.memory.Carries P → m'.ip = P.addr (start + 3) → m'.regs.sp = m.regs.sp - 2 - 2 →
      m'.regs.bp = m.regs.sp - 2 - 2 → m'.memory.readWord (m.regs.sp - 2) = P.addr (i + 2) →
      m'.memory.readWord (m.regs.sp - 2 - 2) = m.regs.bp →
      (∀ a : UInt16, a.toNat + 4 < m.regs.sp.toNat ∨ m.regs.sp.toNat ≤ a.toNat → m'.memory.read a = m.memory.read a) →
      Follows P n ⟨m', ⟨P.addr (i + 2), m.regs.sp, m.regs.bp, m.regs.sp - 2 - 2, 0⟩ :: live⟩ Q) :
    Follows P (n + 3) ⟨m, live⟩ Q := by
  have hlt := m.regs.sp.toNat_lt
  have h₁ : (m.regs.sp - 2).toNat = m.regs.sp.toNat - 2 :=
    UInt16.toNat_sub_of_le m.regs.sp 2 (show 2 ≤ m.regs.sp.toNat by omega)
  have h₂ : (m.regs.sp - 2 - 2).toNat = (m.regs.sp - 2).toNat - 2 :=
    UInt16.toNat_sub_of_le (m.regs.sp - 2) 2 (show 2 ≤ (m.regs.sp - 2).toNat by omega)
  have hcode₁ : (m.memory.writeWord (m.regs.sp - 2) (P.addr (i + 2))).Carries P :=
    hcode.writeWord _ hP.segment (show P.stop ≤ _ by omega) (by omega)
  have hcode₂ : ((m.memory.writeWord (m.regs.sp - 2) (P.addr (i + 2))).writeWord
      (m.regs.sp - 2 - 2) m.regs.bp).Carries P :=
    hcode₁.writeWord _ hP.segment (show P.stop ≤ _ by omega) (by omega)
  refine next hcall hcode hip rfl rfl rfl (show P.stop ≤ m.regs.sp.toNat by omega) fun _ => ?_
  refine next hstart hcode₁ hax rfl rfl rfl (show P.stop ≤ (m.regs.sp - 2).toNat by omega) fun hb => ?_
  refine next hb hcode₂ rfl rfl rfl rfl (show P.stop ≤ (m.regs.sp - 2 - 2).toNat by omega) fun hb => ?_
  refine rest _ hcode₂ (congrArg P.addr hb.nil) rfl rfl ?_ (Memory.readWord_writeWord _ _ _) fun a ha => ?_
  · have low : 2 ≤ (m.regs.sp - 2).toNat := by omega
    exact (Memory.readWord_of_kept (fun _ => Memory.read_writeWord_push low) (Nat.le_refl _) (by omega)).trans
      (Memory.readWord_writeWord _ _ _)
  · show ((m.memory.writeWord (m.regs.sp - 2) (P.addr (i + 2))).writeWord (m.regs.sp - 2 - 2) m.regs.bp).read a = _
    rw [Memory.read_writeWord_outside (by omega) (by omega), Memory.read_writeWord_outside (by omega) (by omega)]

theorem after (h : Follows P n w Q) : ∃ w', w.after n = some w' ∧ Q w' := by
  induction n generalizing w with
  | zero => exact ⟨w, rfl, h⟩
  | succ n ih =>
    obtain ⟨-, w₁, hs, h⟩ := h
    obtain ⟨w', hw', hq⟩ := ih h
    exact ⟨w', by rw [Watch.after, hs, Option.bind_some, hw'], hq⟩

theorem steady (h : Follows P n w Q) {k : Nat} (hk : k < n) {v : Watch} (hv : w.after k = some v) : v.Steady P := by
  induction n generalizing w k with
  | zero => exact absurd hk (Nat.not_lt_zero k)
  | succ n ih =>
    obtain ⟨here, w₁, hs, h⟩ := h
    cases k with
    | zero =>
      obtain rfl : w = v := Option.some.inj hv
      exact here
    | succ k =>
      rw [Watch.after, hs, Option.bind_some] at hv
      exact ih h (Nat.lt_of_succ_lt_succ hk) hv

/-- The stack of the machine stays above the image on the way. -/
theorem above (h : Follows P n w Q) (last : ∀ v, Q v → P.stop ≤ v.machine.regs.sp.toNat) {k : Nat} (hk : k ≤ n)
    {m : Machine} (hm : w.machine.after k = some m) : P.stop ≤ m.regs.sp.toNat := by
  obtain ⟨v, hv, rfl⟩ := Watch.exists_of_machine w hm
  rcases Nat.lt_or_eq_of_le hk with hlt | rfl
  · exact (h.steady hlt hv).above
  · obtain ⟨w', hw', hq⟩ := h.after
    obtain rfl : w' = v := Option.some.inj (hw'.symm.trans hv)
    exact last w' hq

/-- So it does in a whole run, if the machine then exits. -/
theorem above_of_exited (h : Follows P n w fun v => P.stop ≤ v.machine.regs.sp.toNat ∧
    ∃ code m', v.machine.step = .exited code m')
    {k : Nat} {m : Machine} (hm : w.machine.after k = some m) : P.stop ≤ m.regs.sp.toNat := by
  rcases Nat.lt_or_ge n k with hlt | hge
  · obtain ⟨v, hv, -, code, m', hexit⟩ := h.after
    obtain ⟨d, rfl⟩ := Nat.exists_eq_add_of_lt hlt
    rw [Nat.add_assoc, Machine.after_add (Watch.machine_of_after w hv), Machine.after, hexit] at hm
    cases hm
  · exact h.above (fun _ q => q.1) hge hm

end Follows

end DotCom
