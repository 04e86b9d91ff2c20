/-
  DotCom.Proofs.Simulation.Programs — an image does what its program means. A call of a function
  comes back as the evaluation of its body says (`realizes_call`, by induction on the depth of
  calls), so the stub of an image exits with the value of its entry point.

  - `Program.run_of_call`: if evaluation has a result, the run of the image has the same output,
    the same returned values and that value's low byte for its exit code, however many steps that
    takes, as long as the stack does not fall into the image.
-/

import Mathlib.Data.List.Nodup
import DotCom.Proofs.Machine.Watch
import DotCom.Proofs.Simulation.Statements

namespace DotCom

variable {P : Placement}

/-! ## Functions -/

/-- An epilogue takes back what the prologue did. -/
theorem Machine.Leaves.back {m m₁ m' : Machine} (h : m₁.Leaves P m') (low : 2 ≤ m.regs.sp.toNat)
    (ceiling : m.regs.sp.toNat + 2 < 65536) (hbp : m₁.regs.bp = m.regs.sp - 2)
    (hmemory : m₁.memory = m.memory.writeWord (m.regs.sp - 2) m.regs.bp) : m.Back P m' := by
  have hsp : (m.regs.sp - 2).toNat = m.regs.sp.toNat - 2 := UInt16.toNat_sub_of_le _ _ low
  have hsp' : m.regs.sp - 2 + 2 = m.regs.sp := UInt16.sub_add_cancel _ _
  have kept : ∀ a : UInt16, m.regs.sp.toNat ≤ a.toNat → m₁.memory.read a = m.memory.read a := by
    intro a ha
    rw [hmemory]
    exact Memory.read_writeWord_push low ha
  refine ⟨?_, ?_, ?_, fun a ha => ?_, h.code⟩
  · rw [h.ip, hbp, hsp']
    exact Memory.readWord_of_kept kept (Nat.le_refl _) (Nat.lt_of_succ_lt ceiling)
  · rw [h.sp, hbp]
    omega
  · rw [h.bp, hmemory, hbp, Memory.readWord_writeWord]
  · rw [h.memory a (by rw [hbp]; omega), kept a (by omega)]

/-- The first statement of a function, behind its prologue. -/
theorem Stands.enter {m : Machine} (m₁ : Machine) {trace : Trace} (function : String) (hcode : m₁.memory.Carries P)
    (room : P.stop ≤ m₁.regs.sp.toNat) (low : 2 ≤ m.regs.sp.toNat) (ceiling : m.regs.sp.toNat + 2 < 65536)
    (hsp : m₁.regs.sp = m.regs.sp - 2) (hbp : m₁.regs.bp = m.regs.sp - 2) (ht : m₁.Traced P trace) :
    Stands P { function } m₁ { trace } := by
  have hlow : (m.regs.sp - 2).toNat = m.regs.sp.toNat - 2 := UInt16.toNat_sub_of_le _ _ low
  refine ⟨⟨hcode, room, ?_, fun _ h => ?_, ht⟩, ?_, ?_⟩
  · rw [hsp, hbp]
    exact Nat.le_refl _
  · exact nomatch h
  · rw [hsp, hbp]
    rfl
  · rw [hbp]
    omega

theorem Function.WellFormed.small {known : List String} {f : Function} (h : f.WellFormed known) :
    f.frame.allocated.toNat + 2 * declaredIn f.body ≤ Frame.maxAllocated := by
  have declared : declaredIn f.body ≤ 16383 := h.declared
  show 0 + 2 * declaredIn f.body ≤ 32767
  omega

/-- A function from its first byte on, with the return address on the stack. -/
theorem Function.reaches {call : CallMeaning} {known : List String} {f : Function} {i j : Nat} {m : Machine}
    {flow : Flow}
    {trace : Trace} {s : Activation} (hP : P.Sits) (hc : Realizes P call) (hat : f.At P i j) (hw : f.WellFormed known)
    (flat : ∀ st ∈ f.body, st.Flat) (hip : m.ip = P.addr i) (hcode : m.memory.Carries P)
    (hroom : P.stop ≤ m.regs.sp.toNat) (hceiling : m.regs.sp.toNat + 2 < 65536) (ht : m.Traced P trace)
    (hv : evalStmts call f.body { trace } = some (flow, s)) :
    Reaches P m fun m' => m.Back P m' ∧ m'.Traced P (s.trace.return flow.value) ∧ flow.value.Matches P m'.regs.ax := by
  obtain ⟨k, hprologue, hbody, hepilogue⟩ := hat
  have small := hw.small
  have sound := Frame.Sound.start f.name
  have hlow := Nat.le_trans hP.stop hroom
  refine Reaches.exec hprologue hcode hip rfl rfl fun hb => Reaches.above fun room => ?_
  have hcode' : (m.memory.writeWord (m.regs.sp - 2) m.regs.bp).Carries P := by
    have := UInt16.toNat_sub_of_le m.regs.sp 2 hlow
    exact hcode.writeWord _ hP.segment room (by omega)
  refine Reaches.exec hb hcode' rfl rfl rfl fun hb => ?_
  have entered := Stands.enter { m with
    ip := P.addr (i + 1 + 2), memory := m.memory.writeWord (m.regs.sp - 2) m.regs.bp,
    regs := { m.regs with sp := m.regs.sp - 2, bp := m.regs.sp - 2 } } f.name hcode' room hlow hceiling rfl rfl
      (ht.congr rfl rfl)
  refine Reaches.bind (stmts_reach hP hc hbody hw.body flat sound small entered (congrArg P.addr hb.nil) hv)
    fun m₂ h => ?_
  cases flow with
  | next =>
    obtain ⟨hip₂, stands, holding⟩ := h
    refine (reaches_epilogue (v := .unknown) (sound_after _ _ sound small) hepilogue stands hip₂ trivial).mono
      fun m₃ h₃ => ?_
    exact ⟨(holding.leaves entered.ceiling h₃.1).back hlow hceiling rfl rfl, h₃.2⟩
  | returned v => exact Reaches.here ⟨h.1.back hlow hceiling rfl rfl, h.2⟩

/-! ## Calls -/

/-- At each offset listed stands the function that it is listed for. -/
theorem at_of_start {fs : List Function} {starts : List (String × Nat)} {i j start : Nat} {name : String}
    (h : functionsAt P i fs starts j) (hstart : (name, start) ∈ starts) :
    ∃ f ∈ fs, f.name = name ∧ ∃ k, f.At P start k := by
  induction fs generalizing starts i with
  | nil =>
    cases starts with
    | nil => exact nomatch hstart
    | cons _ _ => exact h.elim
  | cons f fs ih =>
    cases starts with
    | nil => exact h.elim
    | cons first starts =>
      obtain ⟨⟨hname, hi⟩, k, hf, hfs⟩ := h
      rcases List.mem_cons.1 hstart with rfl | hstart
      · obtain rfl : start = i := hi
        exact ⟨f, List.mem_cons_self, hname.symm, k, hf⟩
      · obtain ⟨g, hmem, hg⟩ := ih hfs hstart
        exact ⟨g, List.mem_cons_of_mem _ hmem, hg⟩

theorem Program.WellFormed.function {p : Program} {entryPoint : String} {f : Function} (h : p.WellFormed entryPoint)
    (hf : f ∈ p.functions) : ∃ known, f.WellFormed known := by
  obtain ⟨before, after, hsplit⟩ := List.append_of_mem hf
  exact ⟨_, h.functions before.reverse f after (by rw [List.reverse_reverse, hsplit])⟩

/-- Every declaration stands directly in the body of a function. -/
def Program.Flat (p : Program) : Prop := ∀ f ∈ p.functions, ∀ st ∈ f.body, st.Flat

instance (p : Program) : Decidable p.Flat :=
  inferInstanceAs (Decidable (∀ f ∈ p.functions, ∀ st ∈ f.body, st.Flat))

/-- Calls of the functions of a placed program do what evaluation says. -/
theorem realizes_call {p : Program} {entryPoint : String} (hP : P.Sits) (hp : p.At P entryPoint)
    (hw : p.WellFormed entryPoint) (flat : p.Flat) (depth : Nat) : Realizes P (p.call depth) := by
  induction depth with
  | zero => exact fun _ hv => nomatch hv
  | succ depth ih =>
    intro name start trace v trace' m hstart hv hip hcode hroom hceiling ht
    rw [Program.call] at hv
    split at hv
    · rename_i f hf
      rw [Option.map_eq_some_iff] at hv
      obtain ⟨⟨flow, s⟩, hv, heq⟩ := hv
      cases heq
      obtain ⟨g, hg, hname, k, hat⟩ := at_of_start hp.functions hstart
      have hmem := List.mem_of_find?_eq_some hf
      have found : f.name = name := by simpa using List.find?_some hf
      obtain rfl := List.inj_on_of_nodup_map hp.distinct hg hmem (hname.trans found.symm)
      obtain ⟨known, hwf⟩ := hw.function hmem
      exact Function.reaches hP ih hat hwf (flat g hmem) hip hcode hroom hceiling ht hv
    · exact nomatch hv

/-! ## Runs -/

namespace Machine

theorem runFor_add {m m' : Machine} {n : Nat} (h : m.after n = some m') (k : Nat) : m.runFor (n + k) = m'.runFor k := by
  induction n generalizing m with
  | zero =>
    cases h
    rw [Nat.zero_add]
  | succ n ih =>
    rw [after] at h
    rw [Nat.succ_add, runFor]
    split at h
    · rename_i m₁ hs
      rw [hs]
      exact ih h
    · cases h

theorem runFor_of_le {m m' : Machine} {n k : Nat} (h : m.after n = some m') (hk : k ≤ n) :
    m.runFor k = .faulted (.stepLimit stepLimit) := by
  induction k generalizing m n with
  | zero => rfl
  | succ k ih =>
    cases n with
    | zero => exact absurd hk (Nat.not_succ_le_zero k)
    | succ n =>
      rw [after] at h
      rw [runFor]
      split at h
      · rename_i m₁ hs
        rw [hs]
        exact ih h (Nat.le_of_succ_le_succ hk)
      · cases h

theorem runFor_of_faulted {m m' : Machine} {n limit : Nat} {f : Fault} (h : m.after n = some m')
    (hf : m'.step = .faulted f) (hlt : n < limit) : m.runFor limit = .faulted f := by
  obtain ⟨k, rfl⟩ := Nat.exists_eq_add_of_lt hlt
  rw [Nat.add_assoc, runFor_add h, runFor, hf]

/-- A machine that exits does so under every limit that lets it come that far. -/
theorem runFor_of_exited {m m' m'' : Machine} {n : Nat} {code : UInt8} (h : m.after n = some m')
    (he : m'.step = .exited code m'') (limit : Nat) :
    m.runFor limit =
      if n < limit then .exited ⟨code, m''.output, m''.returns⟩ else .faulted (.stepLimit stepLimit) := by
  by_cases hlt : n < limit
  · obtain ⟨k, rfl⟩ := Nat.exists_eq_add_of_lt hlt
    rw [if_pos hlt, Nat.add_assoc, runFor_add h, runFor, he]
  · rw [if_neg hlt]
    exact runFor_of_le h (Nat.le_of_not_lt hlt)

theorem dos_exit {m : Machine} {ax : UInt16} (hax : m.regs.ax = ax) (h : Word.high ax = DosFunction.exit.number) :
    m.dos = .exited (Word.low ax) m := by
  have other : DosFunction.exit.number ≠ DosFunction.printString.number := by decide
  simp only [dos, hax, h, if_neg other, if_true]

/-- The exit of the stub. -/
theorem reaches_exit {m : Machine} {i : Nat} (hh : P.Holds i (Instr.dosCall .exit).encode) (hm : m.memory.Carries P)
    (hip : m.ip = P.addr i) :
    Reaches P m fun m' =>
      ∃ m'', m'.step = .exited (Word.low m.regs.ax) m'' ∧ m''.output = m.output ∧ m''.returns = m.returns := by
  obtain ⟨first, second⟩ := step_of_dosCall hm hh hip
  have hhigh := Word.high_ofBytes (Word.low m.regs.ax) DosFunction.exit.number
  have hlow := Word.low_ofBytes (Word.low m.regs.ax) DosFunction.exit.number
  generalize Word.ofBytes (Word.low m.regs.ax) DosFunction.exit.number = ax at first hhigh hlow
  have exited := (second ({ m with ip := P.addr (i + 2), regs := { m.regs with ax } }) hm rfl).trans
    (dos_exit rfl hhigh)
  rw [hlow] at exited
  exact Reaches.step first (Reaches.here ⟨_, exited, rfl, rfl⟩)

end Machine

namespace Program

/-- From the first byte of an image to the exit of its stub. -/
theorem reaches_end {p : Program} {entryPoint : String} {m : Machine} {depth : Nat} {v : Value} {trace : Trace}
    (hP : P.Sits) (hp : p.At P entryPoint) (hw : p.WellFormed entryPoint) (flat : p.Flat) (hip : m.ip = P.addr 0)
    (hcode : m.memory.Carries P) (hsp : m.regs.sp.toNat + 2 ≤ 65536) (hlow : 2 ≤ m.regs.sp.toNat) (ht : m.Traced P {})
    (hv : p.call depth entryPoint {} = some (v, trace)) :
    Reaches P m fun m' => ∃ w m'', v.Matches P w ∧ m'.step = .exited (Word.low w) m'' ∧ m''.Traced P trace := by
  obtain ⟨address, hb, start, hstart, haddress⟩ := hp.stub
  have hpush : (m.regs.sp - 2).toNat = m.regs.sp.toNat - 2 := UInt16.toNat_sub_of_le _ _ hlow
  refine Reaches.exec hb hcode hip rfl rfl fun hb => ?_
  refine Reaches.exec hb hcode rfl rfl rfl fun hb => Reaches.above fun room => ?_
  obtain ⟨hexit, -⟩ := hb.cons
  have hcode' : ∀ v, (m.memory.writeWord (m.regs.sp - 2) v).Carries P := fun v =>
    hcode.writeWord v hP.segment room (by omega)
  refine Reaches.bind (realizes_call hP hp hw flat depth hstart hv haddress.eq_addr (hcode' _) room ?_
    (ht.congr rfl rfl))
    fun m₁ h => ?_
  · show (m.regs.sp - 2).toNat + 2 < 65536
    omega
  · obtain ⟨back, traced, value⟩ := h
    have hip₁ := back.ip.trans (Memory.readWord_writeWord _ _ _)
    refine (Machine.reaches_exit hexit back.code hip₁).mono fun m₂ h₂ => ?_
    obtain ⟨m₃, hstep, ho, hr⟩ := h₂
    exact ⟨_, m₃, value, hstep, traced.congr ho hr⟩

/-- What compilation answers with the default options lies at 0x100 and behind it. -/
theorem sits_of_compile {p : Program} {image : Array UInt8} (h : p.compile {} = .ok image) :
    (p.placement 0x100 image.toList).Sits :=
  ⟨(at_of_compile h).segment, Nat.le_of_ble_eq_true rfl⟩

theorem carries_of_compile {p : Program} {image : Array UInt8} (h : p.compile {} = .ok image) :
    (Machine.load image).memory.Carries (p.placement 0x100 image.toList) :=
  Memory.Carries.ofBytes rfl rfl (sits_of_compile h).segment

end Program

/-! ## A program that prints -/

/-- Assigns a variable, prints and returns the variable. -/
def Program.greeting : Program :=
  let int : Ty := ⟨.int, 0⟩
  ⟨[⟨"main", int, [], [.declare int "x", .expr (.assign "x" (.int 300)), .expr (.call "puts" [.str "hi$!"]),
    .ret (.ident "x")]⟩]⟩

section

variable {m : Machine} {live : List Invocation}

/-- The end of `greeting`, from the literal to the exit. -/
theorem follows_farewell {c : Invocation} (hcode : m.memory.Carries P) (hip : m.ip = P.addr 28)
    (hsp : m.regs.sp + 2 = c.base) (room : P.stop ≤ m.regs.sp.toNat) (ceiling : m.regs.sp.toNat + 6 < 65536)
    (hback : m.memory.readWord (m.regs.sp + 2 + 2) = P.addr 5)
    (hprint : P.Block 28 [.movImm .ax (P.addr 23), .movReg .dx .ax, .dosCall .printString, .loadFrame .ax (-2),
      .addImm .sp 2, .pop .bp, .ret] 45)
    (htext : P.Holds 23 (charBytes "hi$!" ++ [DosFunction.sentinel])) (hexit : P.Block 5 [.dosCall .exit] 9) :
    Follows P 9 ⟨m, c :: live⟩ fun w => P.stop ≤ w.machine.regs.sp.toNat ∧
    ∃ code m', w.machine.step = .exited code m' := by
  have two : (m.regs.sp + 2).toNat = m.regs.sp.toNat + 2 :=
    Word.toNat_add rfl (show m.regs.sp.toNat + 2 < 65536 by omega)
  have four : (m.regs.sp + 2 + 2).toNat = (m.regs.sp + 2).toNat + 2 :=
    Word.toNat_add rfl (show (m.regs.sp + 2).toNat + 2 < 65536 by omega)
  have six : (m.regs.sp + 2 + 2 + 2).toNat = (m.regs.sp + 2 + 2).toNat + 2 :=
    Word.toNat_add rfl (show (m.regs.sp + 2 + 2).toNat + 2 < 65536 by omega)
  refine Follows.next hprint hcode hip rfl rfl rfl room fun hb => ?_
  refine Follows.next hb hcode rfl rfl rfl rfl room fun hb => ?_
  refine Follows.dosCall hb hcode rfl room fun m₁ hmemory hsp₁ hbp hdx hnumber hdos hb => ?_
  have hsp₁ : m₁.regs.sp = m.regs.sp := hsp₁
  have hmemory : m₁.memory = m.memory := hmemory
  have printed := printed_of_shows (n := 65536) (hmemory ▸ hcode.shows htext) (by decide) #[]
  refine Follows.of_decode hdos trivial (Machine.dos_print hnumber rfl hdx printed) (hsp₁ ▸ room) ?_
  rw [← hmemory] at hcode
  rw [← hsp₁] at room two four six hsp hback ceiling
  rw [← hmemory] at hback
  refine Follows.next hb hcode rfl rfl rfl rfl room fun hb => ?_
  refine Follows.next hb hcode rfl rfl rfl rfl room fun hb => ?_
  have balanced : ∀ d ∈ some c, m₁.regs.sp + 2 = d.base := by
    intro d hd
    rw [← Option.some.inj hd]
    exact hsp
  refine Follows.exec hb hcode rfl rfl balanced rfl (show P.stop ≤ (m₁.regs.sp + 2).toNat by omega) fun hb => ?_
  refine Follows.next hb hcode rfl rfl rfl rfl (show P.stop ≤ (m₁.regs.sp + 2 + 2).toNat by omega) fun _ => ?_
  have above : P.stop ≤ (m₁.regs.sp + 2 + 2 + 2).toNat := by omega
  refine Follows.dosCall hexit hcode hback above fun m₂ _ hsp₂ _ _ hnumber hdos _ =>
    ⟨?_, Word.low m₂.regs.ax, { m₂ with ip := P.addr 9 }, ?_⟩
  · rw [hsp₂]
    exact above
  · rw [Machine.step, hdos]
    exact Machine.dos_exit rfl hnumber

theorem follows_greeting (hP : P.Sits) (hcode : m.memory.Carries P) (hip : m.ip = P.addr 0)
    (room : P.stop + 6 ≤ m.regs.sp.toNat) (hstub : P.Block 0 (stub (P.addr 9)) stubSize)
    (hmain : P.Block 9 [.push .bp, .movReg .bp .sp] 12)
    (hassign : P.Block 12 [.subImm .sp 2, .movImm .ax 300, .storeFrame .ax (-2), .jmpShort 5] 23)
    (hprint : P.Block 28 [.movImm .ax (P.addr 23), .movReg .dx .ax, .dosCall .printString, .loadFrame .ax (-2),
      .addImm .sp 2, .pop .bp, .ret] 45)
    (htext : P.Holds 23 (charBytes "hi$!" ++ [DosFunction.sentinel])) :
    Follows P 17 ⟨m, []⟩ fun w => P.stop ≤ w.machine.regs.sp.toNat ∧ ∃ code m', w.machine.step = .exited code m' := by
  have hlt := m.regs.sp.toNat_lt
  have h₁ : (m.regs.sp - 2).toNat = m.regs.sp.toNat - 2 :=
    UInt16.toNat_sub_of_le m.regs.sp 2 (show 2 ≤ m.regs.sp.toNat by omega)
  have h₂ : (m.regs.sp - 2 - 2).toNat = (m.regs.sp - 2).toNat - 2 :=
    UInt16.toNat_sub_of_le (m.regs.sp - 2) 2 (show 2 ≤ (m.regs.sp - 2).toNat by omega)
  have h₃ : (m.regs.sp - 2 - 2 - 2).toNat = (m.regs.sp - 2 - 2).toNat - 2 :=
    UInt16.toNat_sub_of_le (m.regs.sp - 2 - 2) 2 (show 2 ≤ (m.regs.sp - 2 - 2).toNat by omega)
  refine Follows.next hstub hcode hip rfl rfl rfl (show P.stop ≤ m.regs.sp.toNat by omega) fun hb => ?_
  refine Follows.enter hP hb hmain hcode rfl rfl (show P.stop + 4 ≤ m.regs.sp.toNat by omega)
    fun m₁ hcode₁ hip₁ hsp₁ hbp₁ hback _ _ => ?_
  have hsp₁ : m₁.regs.sp = m.regs.sp - 2 - 2 := hsp₁
  have hbp₁ : m₁.regs.bp = m.regs.sp - 2 - 2 := hbp₁
  have hback : m₁.memory.readWord (m.regs.sp - 2) = P.addr 5 := hback
  rw [← hsp₁] at h₂ h₃
  have low : P.stop ≤ (m₁.regs.sp - 2).toNat := by omega
  have slot : m₁.regs.bp + (-2 : Int16).toUInt16 = m₁.regs.sp - 2 := by
    rw [hbp₁, hsp₁, UInt16.sub_eq_add_neg (m.regs.sp - 2 - 2)]
    rfl
  have hcode₂ : (m₁.memory.writeWord (m₁.regs.bp + (-2 : Int16).toUInt16) 300).Carries P := by
    rw [slot]
    exact hcode₁.writeWord _ hP.segment low (by omega)
  have hback₂ : (m₁.memory.writeWord (m₁.regs.bp + (-2 : Int16).toUInt16) 300).readWord (m₁.regs.sp - 2 + 2 + 2) =
      P.addr 5 := by
    have kept : ∀ a : UInt16, (m₁.regs.sp - 2).toNat + 2 ≤ a.toNat →
        (m₁.memory.writeWord (m₁.regs.sp - 2) 300).read a = m₁.memory.read a := fun a ha =>
      Memory.read_writeWord_outside (by omega) (by omega)
    rw [slot, UInt16.sub_add_cancel, hsp₁, UInt16.sub_add_cancel, ← hsp₁,
      Memory.readWord_of_kept kept (by omega) (by omega), hback]
  have inside : (P.stop : Int) ≤ m₁.regs.bp.toNat + -2 := by
    rw [hbp₁, ← hsp₁]
    omega
  refine Follows.next hassign hcode₁ hip₁ rfl rfl rfl (show P.stop ≤ m₁.regs.sp.toNat by omega) fun hb => ?_
  refine Follows.next hb hcode₁ rfl rfl rfl rfl low fun hb => ?_
  refine Follows.exec hb hcode₁ rfl rfl inside rfl low fun hb => ?_
  refine Follows.next hb hcode₂ rfl rfl rfl rfl low fun hb => ?_
  obtain ⟨-, hexit⟩ := hstub.cons
  obtain ⟨-, hexit⟩ := hexit.cons
  exact follows_farewell hcode₂ (P.addr_add_signExtend rfl) ((UInt16.sub_add_cancel _ _).trans hsp₁) low
    (show (m₁.regs.sp - 2).toNat + 6 < 65536 by omega) hback₂ hprint htext hexit

end

namespace Program

/-- Where the code of `greeting` stands. -/
theorem greeting_blocks :
    let P := greeting.placement 0x100 (greeting.code 0x100 "main")
    P.Block 0 (stub (P.addr 9)) stubSize ∧ P.Block 9 [.push .bp, .movReg .bp .sp] 12 ∧
      P.Block 12 [.subImm .sp 2, .movImm .ax 300, .storeFrame .ax (-2), .jmpShort 5] 23 ∧
      P.Block 28 [.movImm .ax (P.addr 23), .movReg .dx .ax, .dosCall .printString, .loadFrame .ax (-2), .addImm .sp 2,
        .pop .bp, .ret] 45 ∧ P.Holds 23 (charBytes "hi$!" ++ [DosFunction.sentinel]) := by
  intro P
  refine ⟨.of_drop ?_ ?_ ?_, .of_drop ?_ ?_ ?_, .of_drop ?_ ?_ ?_, .of_drop ?_ ?_ ?_, .of_drop ?_ ?_⟩ <;> decide +kernel

end Program

/-! ## Whole runs -/

/-- An outcome that shows what an evaluation gave. -/
structure Outcome.Agrees (P : Placement) (o : Outcome) (v : Value) (trace : Trace) : Prop where
  output : o.output.toList = trace.output
  returns : List.Forall₂ (Value.Matches P) trace.returns o.returns.toList
  exitCode : ∃ w, v.Matches P w ∧ o.exitCode = Word.low w

/-- An image does what its program means. -/
theorem Program.run_of_call (p : Program) (image : Array UInt8) (h : p.compile {} = .ok image) (flat : p.Flat)
    (depth : Nat) (v : Value) (trace : Trace) (hv : p.call depth "main" {} = some (v, trace))
    (stack : ∀ n m, (Machine.load image).after n = some m → 0x100 + image.size ≤ m.regs.sp.toNat) :
    ∃ steps o, o.Agrees (p.placement 0x100 image.toList) v trace ∧
      (∀ limit, (Machine.load image).runFor limit =
        if steps < limit then .exited o else .faulted (.stepLimit Machine.stepLimit)) ∧
      Machine.run image =
        if steps < Machine.stepLimit then .exited o else .faulted (.stepLimit Machine.stepLimit) := by
  have hp := at_of_compile h
  have hP := sits_of_compile h
  obtain ⟨steps, m, hsteps, ⟨w, m', value, hexit, traced⟩ | low⟩ :=
    reaches_end hP hp (of_compile h).1 flat rfl (carries_of_compile h) (show 0xfffe + 2 ≤ 65536 by decide)
      (show 2 ≤ 0xfffe by decide) ⟨rfl, .nil⟩ hv
  · have runs := Machine.runFor_of_exited hsteps hexit
    have fits : 0x100 + image.size ≤ 65536 := hP.segment
    refine ⟨steps, _, ⟨traced.output, traced.returns, w, value, rfl⟩, runs, ?_⟩
    rw [Machine.run, if_pos fits, runs]
  · exact absurd (stack steps m hsteps) (Nat.not_le_of_lt low)

/-- A run whose exit code is the low byte of what it returns. -/
theorem Program.greeting_runs :
    ∃ image, greeting.compile {} = .ok image ∧ greeting.Flat ∧
      greeting.call 1 "main" {} = some (.word 300, ⟨[104, 105], [.word 300]⟩) ∧
      (∀ n m, (Machine.load image).after n = some m → 0x100 + image.size ≤ m.regs.sp.toNat) ∧
      Machine.run image = .exited ⟨44, #[104, 105], #[300]⟩ := by
  have h : greeting.compile {} = .ok (greeting.code 0x100 "main").toArray :=
    compile_eq_code (by decide +kernel) (by decide +kernel) (by decide +kernel)
  have hP := sits_of_compile h
  have hstop : (greeting.placement 0x100 (greeting.code 0x100 "main")).stop = 306 := by decide +kernel
  have hflat : greeting.Flat := by decide
  have hcall : greeting.call 1 "main" {} = some (.word 300, ⟨[104, 105], [.word 300]⟩) := by decide +kernel
  obtain ⟨hstub, hmain, hassign, hprint, htext⟩ := greeting_blocks
  have follows := follows_greeting hP (carries_of_compile h) rfl
    (by rw [hstop]; exact Nat.le_of_ble_eq_true rfl) hstub hmain hassign hprint htext
  obtain ⟨w, hw, -, code, m', hexit⟩ := follows.after
  have hafter := Watch.machine_of_after (Watch.load _) hw
  have stack : ∀ n m, (Machine.load (greeting.code 0x100 "main").toArray).after n = some m →
      0x100 + (greeting.code 0x100 "main").toArray.size ≤ m.regs.sp.toNat := by
    intro n m hn
    exact follows.above_of_exited hn
  obtain ⟨steps, ⟨exitCode, output, returns⟩, agrees, runs, hrun⟩ := run_of_call greeting _ h hflat 1 _ _ hcall stack
  -- The run is known to exit within the limit, so the first case is the one that holds.
  have exits := Machine.runFor_of_exited hafter hexit Machine.stepLimit
  rw [if_pos (by decide)] at exits
  have within : steps < Machine.stepLimit := by
    refine Decidable.byContradiction fun late => ?_
    have faults := runs Machine.stepLimit
    rw [if_neg late] at faults
    cases exits.symm.trans faults
  have houtput : output = #[104, 105] := Array.toList_inj.1 agrees.output
  have hreturns : returns = #[300] := by
    obtain ⟨w, rest, rfl, hrest, hall⟩ := List.forall₂_cons_left_iff.1 agrees.returns
    rw [List.forall₂_nil_left_iff.1 hrest] at hall
    exact Array.toList_inj.1 hall
  have hcode : exitCode = 44 := by
    obtain ⟨w, rfl, hlow⟩ := agrees.exitCode
    exact hlow
  rw [if_pos within, houtput, hreturns, hcode] at hrun
  exact ⟨_, h, hflat, hcall, stack, hrun⟩

end DotCom
