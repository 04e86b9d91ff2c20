/-
  DotCom.Proofs.Machine.Effects — what the instructions mean, told without their bytes, and that the
  processor does just that where their bytes stand (`Instr.executes_as_meant`).

  An instruction has an effect: registers that get a word, cells that get a byte, flags, what is
  written and returned, and where the program goes on. What an effect does not name stays as it is
  (`Machine.Changes`). Arithmetic is told by its exact result as a signed number: the word is that
  number modulo 2¹⁶, and the overflow flag says whether it is out of the range of words.

  - `ofSum_eq`, `ofDifference_eq`: the flags of the processor are those of the exact result.
  - `printed_eq`: a string that is printed ends at the first sentinel, counted round the segment.
-/

import DotCom.Proofs.Machine.Operators

namespace DotCom

/-! ## What instructions mean -/

/-- Where a program goes on after an instruction. -/
inductive Going where
  /-- Behind the instruction. -/
  | on
  /-- By a displacement, counted from there. -/
  | past (disp : Int)
  | into (addr : UInt16)

/-- The address, from the one behind the instruction. -/
def Going.address (behind : UInt16) : Going → UInt16
  | on => behind
  | past disp => UInt16.ofInt (behind.toNat + disp)
  | into addr => addr

/-- What an instruction changes. -/
structure Effect where
  regs : List (Reg × UInt16) := []
  cells : List (UInt16 × UInt8) := []
  flags : Option Flags := none
  output : List UInt8 := []
  returned : Option UInt16 := none
  going : Going := .on

/-- How an instruction ends. -/
inductive Meaning where
  | effect (e : Effect)
  /-- The program ends, with an exit code. -/
  | exit (code : UInt8) (e : Effect)
  | fault (f : Fault)
  | endless

/-- The two cells of a word. -/
def Word.cells (addr v : UInt16) : List (UInt16 × UInt8) := [(addr, Word.low v), (addr + 1, Word.high v)]

/-- The flags of an operation, from its exact result as a signed number. -/
def Flags.ofNumber (n : Int) : Flags where
  zero := UInt16.ofInt n = 0
  sign := (UInt16.ofInt n).toInt16.toInt < 0
  overflow := n < -32768 ∨ 32767 < n

/-- The `n` bytes from an address on; addresses wrap round. -/
def Memory.bytesFrom (mem : Memory) (addr : UInt16) (n : Nat) : List UInt8 :=
  (List.range n).map fun k => mem.read (addr + UInt16.ofNat k)

namespace Machine

/-- A register as a signed number. -/
def signed (m : Machine) (r : Reg) : Int := (m.regs.get r).toInt16.toInt

/-- The address of a word in the frame. -/
def cellAddr (m : Machine) (disp : Int16) : UInt16 := UInt16.ofInt (m.regs.bp.toNat + disp.toInt)

/-- The signed number of 32 bits in `dx` and `ax`. -/
def dividend (m : Machine) : Int := 65536 * m.signed .dx + m.regs.ax.toNat

/-- The effect of a word put on the stack. -/
def pushing (m : Machine) (v : UInt16) : Effect where
  regs := [(.sp, m.regs.sp - 2)]
  cells := Word.cells (m.regs.sp - 2) v

end Machine

/-- A register gets the exact result of an operation modulo 2¹⁶, and the flags tell about it. -/
def Effect.result (dst : Reg) (n : Int) : Effect where
  regs := [(dst, UInt16.ofInt n)]
  flags := some (.ofNumber n)

/-- Division of the dividend by a number, truncated; its fault where the quotient is not a word. -/
def Machine.quotient (m : Machine) (d : Int) : Meaning :=
  let q := m.dividend.tdiv d
  if d = 0 then .fault (.divideByZero m.ip)
  else if q < -32768 ∨ 32767 < q then .fault (if q = 0x80000000 then .quotientTooWide else .divideOverflow m.ip)
  else .effect { regs := [(.dx, UInt16.ofInt (m.dividend.tmod d)), (.ax, UInt16.ofInt q)] }

/-- A call of the operating system. It leaves its number in `ah`. -/
def DosFunction.meaning (m : Machine) (function : DosFunction) : Meaning :=
  let number := [(Reg.ax, Word.ofBytes (Word.low m.regs.ax) function.number)]
  match function with
  | printString =>
    let bytes := m.memory.bytesFrom m.regs.dx 65536
    if sentinel ∈ bytes then .effect { regs := number, output := bytes.takeWhile (· != sentinel) } else .endless
  | exit => .exit (Word.low m.regs.ax) { regs := number }

/-- What an instruction does in a state. -/
def Instr.meaning (m : Machine) : Instr → Meaning
  | movImm dst value => .effect { regs := [(dst, value)] }
  | loadAbs dst addr => .effect { regs := [(dst, m.memory.readWord addr)] }
  | storeAbs src addr => .effect { cells := Word.cells addr (m.regs.get src) }
  | loadFrame dst disp => .effect { regs := [(dst, m.memory.readWord (m.cellAddr disp))] }
  | storeFrame src disp => .effect { cells := Word.cells (m.cellAddr disp) (m.regs.get src) }
  | pushFrame disp => .effect (m.pushing (m.memory.readWord (m.cellAddr disp)))
  | push src => .effect (m.pushing (m.regs.get src))
  -- What `pop sp` leaves in `sp` is the word it took.
  | pop dst => .effect { regs := [(dst, m.memory.readWord m.regs.sp), (.sp, m.regs.sp + 2)] }
  | addImm dst value => .effect (.result dst (m.signed dst + value.toInt))
  | subImm dst value => .effect (.result dst (m.signed dst - value.toInt))
  | movReg dst src => .effect { regs := [(dst, m.regs.get src)] }
  | add dst src => .effect (.result dst (m.signed dst + m.signed src))
  | sub dst src => .effect (.result dst (m.signed dst - m.signed src))
  | imul dst src => .effect { regs := [(dst, UInt16.ofInt (m.signed dst * m.signed src))] }
  | cwd => .effect { regs := [(.dx, if m.signed .ax < 0 then 0xffff else 0)] }
  | idiv divisor => m.quotient (m.signed divisor)
  | cmp lhs rhs => .effect { flags := some (.ofNumber (m.signed lhs - m.signed rhs)) }
  | xor dst src => .effect (.result dst (m.regs.get dst ^^^ m.regs.get src).toInt16.toInt)
  | test lhs rhs => .effect { flags := some (.ofNumber (m.regs.get lhs &&& m.regs.get rhs).toInt16.toInt) }
  | jcc cond rel => .effect { going := if cond.holds m.flags then .past rel.toInt else .on }
  | jmpShort rel => .effect { going := .past rel.toInt }
  | jmpNear rel => .effect { going := .past rel.toNat }
  | callReg target => .effect { m.pushing (m.ip + 2) with going := .into (m.regs.get target) }
  | jmpReg target => .effect { going := .into (m.regs.get target) }
  | ret =>
    .effect
      { regs := [(.sp, m.regs.sp + 2)], returned := some m.regs.ax, going := .into (m.memory.readWord m.regs.sp) }
  | dosCall function => function.meaning m

/-- The number of steps that an instruction takes. -/
def Instr.steps : Instr → Nat
  | dosCall _ => 2
  | _ => 1

/-! ## What the processor does -/

/-- The second state is the first one with an effect, and with nothing else changed. -/
structure Machine.Changes (m : Machine) (size : Nat) (e : Effect) (m' : Machine) : Prop where
  regs : ∀ r, m'.regs.get r = (e.regs.lookup r).getD (m.regs.get r)
  memory : ∀ a, m'.memory.read a = (e.cells.lookup a).getD (m.memory.read a)
  flags : m'.flags = e.flags.getD m.flags
  output : m'.output.toList = m.output.toList ++ e.output
  returns : m'.returns.toList = m.returns.toList ++ e.returned.toList
  ip : m'.ip = e.going.address (m.ip + UInt16.ofNat size)

/-- A step from a state does what an instruction of a given size means. -/
def Step.Does (m : Machine) (size : Nat) : Step → Meaning → Prop
  | .running m', .effect e => m.Changes size e m'
  | .exited code' m', .exit code e => code' = code ∧ m.Changes size e m'
  | .faulted f', .fault f => f' = f
  | .endless, .endless => True
  | _, _ => False

/-- A number of steps, up to the first that does not go on. -/
def Machine.stepFor : Nat → Machine → Step
  | 0, m => .running m
  | n + 1, m =>
    match m.step with
    | .running m' => m'.stepFor n
    | ended => ended

namespace Machine

theorem stepFor_one (m : Machine) : m.stepFor 1 = m.step := by
  unfold stepFor
  cases m.step <;> rfl

end Machine

/-! ## Words and exact results -/

namespace Word

theorem ofInt_toInt16 (w : UInt16) : UInt16.ofInt w.toInt16.toInt = w := by
  rw [toInt_toInt16, ← UInt16.toNat_inj, UInt16.ofInt, UInt16.toNat_ofNat']
  have := w.toNat_lt
  split <;> omega

theorem ofInt_toNat (w : UInt16) : UInt16.ofInt w.toNat = w := by
  rw [← UInt16.toNat_inj, UInt16.ofInt, UInt16.toNat_ofNat']
  have := w.toNat_lt
  omega

theorem ofInt_sub (a b : Int) : UInt16.ofInt (a - b) = UInt16.ofInt a - UInt16.ofInt b := by
  rw [Int.sub_eq_add_neg, UInt16.ofInt_add, UInt16.ofInt_neg, UInt16.sub_eq_add_neg]

theorem ofInt_signed_add (a b : UInt16) : UInt16.ofInt (a.toInt16.toInt + b.toInt16.toInt) = a + b := by
  rw [UInt16.ofInt_add, ofInt_toInt16, ofInt_toInt16]

theorem ofInt_signed_sub (a b : UInt16) : UInt16.ofInt (a.toInt16.toInt - b.toInt16.toInt) = a - b := by
  rw [ofInt_sub, ofInt_toInt16, ofInt_toInt16]

theorem ofInt_int16 (v : Int16) : UInt16.ofInt v.toInt = v.toUInt16 := by
  have h := ofInt_toInt16 v.toUInt16
  rwa [Int16.toInt16_toUInt16] at h

theorem ofInt_int8 (v : Int8) : UInt16.ofInt v.toInt = signExtend v.toUInt8 := by
  rw [signExtend, Int8.toInt8_toUInt8, ← Int8.toInt_toInt16, ofInt_int16]

end Word

namespace Flags

/-- The flags of a result and of its overflow. -/
theorem eq_ofNumber {n : Int} {w : UInt16} {overflow : Bool} (hw : UInt16.ofInt n = w)
    (ho : overflow = decide (n < -32768 ∨ 32767 < n)) : { ofResult w with overflow := overflow } = ofNumber n := by
  subst hw ho
  rw [ofNumber, ← negative_iff]
  rfl

theorem ofResult_eq (w : UInt16) : ofResult w = ofNumber w.toInt16.toInt := by
  have range : ¬ (w.toInt16.toInt < -32768 ∨ 32767 < w.toInt16.toInt) := by
    rw [Word.toInt_toInt16]
    have := w.toNat_lt
    split <;> omega
  exact eq_ofNumber (Word.ofInt_toInt16 w) (decide_eq_false range).symm

theorem ofSum_eq (a b : UInt16) : ofSum a b = ofNumber (a.toInt16.toInt + b.toInt16.toInt) := by
  have overflow : negative (~~~(a ^^^ b) &&& (a ^^^ (a + b))) = BitVec.saddOverflow a.toBitVec b.toBitVec := by
    rw [negative_eq_msb, BitVec.saddOverflow_eq]
    simp only [UInt16.toBitVec_and, UInt16.toBitVec_not, UInt16.toBitVec_xor, UInt16.toBitVec_add, BitVec.msb_and,
      BitVec.msb_xor, BitVec.msb_not]
    cases a.toBitVec.msb <;> cases b.toBitVec.msb <;> cases (a.toBitVec + b.toBitVec).msb <;> rfl
  refine eq_ofNumber (Word.ofInt_signed_add a b) (overflow.trans ?_)
  rw [BitVec.saddOverflow, ← Bool.decide_or, decide_eq_decide]
  show a.toInt16.toInt + b.toInt16.toInt ≥ 32768 ∨ a.toInt16.toInt + b.toInt16.toInt < -32768 ↔ _
  omega

theorem ofDifference_eq (a b : UInt16) : ofDifference a b = ofNumber (a.toInt16.toInt - b.toInt16.toInt) := by
  have overflow : negative ((a ^^^ b) &&& (a ^^^ (a - b))) = BitVec.ssubOverflow a.toBitVec b.toBitVec := by
    rw [negative_eq_msb, BitVec.ssubOverflow_eq]
    simp only [UInt16.toBitVec_and, UInt16.toBitVec_xor, UInt16.toBitVec_sub, BitVec.msb_and, BitVec.msb_xor]
    cases a.toBitVec.msb <;> cases b.toBitVec.msb <;> cases (a.toBitVec - b.toBitVec).msb <;> rfl
  refine eq_ofNumber (Word.ofInt_signed_sub a b) (overflow.trans ?_)
  rw [BitVec.ssubOverflow, ← Bool.decide_or, decide_eq_decide]
  show a.toInt16.toInt - b.toInt16.toInt ≥ 32768 ∨ a.toInt16.toInt - b.toInt16.toInt < -32768 ↔ _
  omega

end Flags

/-! ## Single effects -/

theorem lookup_cons_getD {α β : Type} [DecidableEq α] (k a : α) (v x : β) (rest : List (α × β)) :
    (((k, v) :: rest).lookup a).getD x = if a = k then v else (rest.lookup a).getD x := by
  rw [List.lookup_cons]
  by_cases h : a = k
  · rw [if_pos h, beq_iff_eq.2 h]
    rfl
  · rw [if_neg h, beq_eq_false_iff_ne.2 h]

theorem Registers.get_set_lookup (rs : Registers) (r s : Reg) (v : UInt16) :
    (rs.set r v).get s = ([(r, v)].lookup s).getD (rs.get s) := by
  rw [get_set, lookup_cons_getD]
  rfl

theorem Memory.read_writeWord (mem : Memory) (a b v : UInt16) :
    (mem.writeWord a v).read b = ((Word.cells a v).lookup b).getD (mem.read b) := by
  rw [Word.cells, lookup_cons_getD, lookup_cons_getD, writeWord]
  have apart : a + 1 ≠ a := by simp
  by_cases h0 : b = a
  · rw [if_pos h0, h0, read_write_ne _ _ apart, read_write_self]
  · rw [if_neg h0]
    by_cases h1 : b = a + 1
    · rw [if_pos h1, h1, read_write_self]
    · rw [if_neg h1, ← writeWord, read_writeWord_of_ne (Ne.symm h0) (Ne.symm h1)]
      rfl

namespace Machine

variable (m : Machine) (size : Nat)

/-- The state in which an instruction is done, `ip` already behind it. -/
def behind : Machine := { m with ip := m.ip + UInt16.ofNat size }

namespace Changes

/-- An effect on registers, memory and flags. -/
theorem quiet {m m' : Machine} {size : Nat} {e : Effect} (he : e.output = [] ∧ e.returned = none)
    (hm : m'.output = m.output ∧ m'.returns = m.returns)
    (regs : ∀ r, m'.regs.get r = (e.regs.lookup r).getD (m.regs.get r))
    (memory : ∀ a, m'.memory.read a = (e.cells.lookup a).getD (m.memory.read a))
    (flags : m'.flags = e.flags.getD m.flags) (ip : m'.ip = e.going.address (m.ip + UInt16.ofNat size)) :
    m.Changes size e m' := by
  refine ⟨regs, memory, flags, ?_, ?_, ip⟩
  · rw [he.1, hm.1, List.append_nil]
  · rw [he.2, hm.2]
    exact (List.append_nil _).symm

theorem set (r : Reg) (v : UInt16) : m.Changes size { regs := [(r, v)] } ((m.behind size).set r v) :=
  quiet ⟨rfl, rfl⟩ ⟨rfl, rfl⟩ (fun s => m.regs.get_set_lookup r s v) (fun _ => rfl) rfl rfl

theorem store (addr v : UInt16) : m.Changes size { cells := Word.cells addr v } ((m.behind size).store addr v) :=
  quiet ⟨rfl, rfl⟩ ⟨rfl, rfl⟩ (fun _ => rfl) (fun a => m.memory.read_writeWord addr a v) rfl rfl

theorem push (v : UInt16) (going : Going) :
    m.Changes size { m.pushing v with going := going }
      { (m.behind size).push v with ip := going.address (m.ip + UInt16.ofNat size) } :=
  quiet ⟨rfl, rfl⟩ ⟨rfl, rfl⟩ (fun s => m.regs.get_set_lookup .sp s _) (fun a => m.memory.read_writeWord _ a v) rfl rfl

theorem pop (dst : Reg) :
    m.Changes size { regs := [(dst, m.top), (.sp, m.regs.sp + 2)] } ((m.behind size).drop.set dst m.top) := by
  refine quiet ⟨rfl, rfl⟩ ⟨rfl, rfl⟩ (fun s => ?_) (fun _ => rfl) rfl rfl
  exact ((m.regs.set .sp _).get_set dst s _).trans (by rw [m.regs.get_set, lookup_cons_getD, lookup_cons_getD]; rfl)

theorem compare (f : Flags) : m.Changes size { flags := some f } { m.behind size with flags := f } :=
  quiet ⟨rfl, rfl⟩ ⟨rfl, rfl⟩ (fun _ => rfl) (fun _ => rfl) rfl rfl

/-- The result of an operation, with its flags. -/
theorem result (dst : Reg) {n : Int} {v : UInt16} {f : Flags} (hv : UInt16.ofInt n = v) (hf : f = .ofNumber n) :
    m.Changes size (.result dst n) ({ m.behind size with flags := f }.set dst v) := by
  subst hv hf
  exact quiet ⟨rfl, rfl⟩ ⟨rfl, rfl⟩ (fun s => m.regs.get_set_lookup dst s _) (fun _ => rfl) rfl rfl

theorem go {going : Going} {addr : UInt16} (h : addr = going.address (m.ip + UInt16.ofNat size)) :
    m.Changes size { going := going } { m with ip := addr } :=
  quiet ⟨rfl, rfl⟩ ⟨rfl, rfl⟩ (fun _ => rfl) (fun _ => rfl) rfl h

theorem ret :
    m.Changes size { regs := [(.sp, m.regs.sp + 2)], returned := some m.regs.ax, going := .into m.top }
      { (m.behind size).drop with ip := m.top, returns := m.returns.push m.regs.ax } := by
  refine ⟨fun s => m.regs.get_set_lookup .sp s _, fun _ => rfl, rfl, (List.append_nil _).symm, ?_, rfl⟩
  exact Array.toList_push

end Changes

/-! ## Division -/

theorem bmod_eq_dividend :
    Int.bmod (65536 * m.regs.dx.toNat + m.regs.ax.toNat) 0x100000000 = m.dividend := by
  have hdx := m.regs.dx.toNat_lt
  have hax := m.regs.ax.toNat_lt
  have top : m.signed .dx = _ := Word.toInt_toInt16 m.regs.dx
  rw [dividend, top, Int.bmod_def]
  by_cases h : m.regs.dx.toNat < 32768
  · rw [if_pos h]
    split <;> omega
  · rw [if_neg h]
    split <;> omega

theorem divide_does (divisor : UInt16) :
    ((m.behind size).divide divisor m.ip).Does m size (m.quotient divisor.toInt16.toInt) := by
  have number : Int.bmod (65536 * (m.behind size).regs.dx.toNat + (m.behind size).regs.ax.toNat) 0x100000000 =
      m.dividend :=
    m.bmod_eq_dividend
  unfold divide quotient
  rw [number]
  generalize divisor.toInt16.toInt = d
  dsimp only
  by_cases hd : d = 0
  · rw [if_pos hd, if_pos hd]
    rfl
  · rw [if_neg hd, if_neg hd]
    by_cases hq : m.dividend.tdiv d = 0x80000000
    · rw [if_pos hq, if_pos (by omega), if_pos hq]
      rfl
    · rw [if_neg hq]
      by_cases hr : m.dividend.tdiv d < -32768 ∨ 32767 < m.dividend.tdiv d
      · rw [if_pos hr, if_pos hr, if_neg hq]
        rfl
      · rw [if_neg hr, if_neg hr]
        refine Changes.quiet ⟨rfl, rfl⟩ ⟨rfl, rfl⟩ (fun s => ?_) (fun _ => rfl) rfl rfl
        refine ((m.regs.set .ax _).get_set .dx s _).trans ?_
        rw [m.regs.get_set, lookup_cons_getD, lookup_cons_getD]
        rfl

end Machine

/-! ## Printing -/

theorem Memory.add_ofNat_succ (addr : UInt16) (k : Nat) : addr + UInt16.ofNat (k + 1) = addr + 1 + UInt16.ofNat k := by
  rw [UInt16.ofNat_add, UInt16.add_comm (UInt16.ofNat k), ← UInt16.add_assoc]
  rfl

theorem Memory.bytesFrom_succ (mem : Memory) (addr : UInt16) (n : Nat) :
    mem.bytesFrom addr (n + 1) = mem.read addr :: mem.bytesFrom (addr + 1) n := by
  have first : addr + UInt16.ofNat 0 = addr := UInt16.add_zero addr
  rw [bytesFrom, List.range_succ_eq_map, List.map_cons, List.map_map, first]
  simp only [Function.comp_def, Nat.succ_eq_add_one, add_ofNat_succ]
  rfl

/-- All the way round the segment every byte is met. -/
theorem Memory.mem_bytesFrom (mem : Memory) (addr : UInt16) (b : UInt8) :
    b ∈ mem.bytesFrom addr 65536 ↔ ∃ a, mem.read a = b := by
  rw [bytesFrom, List.mem_map]
  constructor
  · rintro ⟨k, -, hk⟩
    exact ⟨_, hk⟩
  · rintro ⟨a, ha⟩
    refine ⟨(a - addr).toNat, List.mem_range.2 (a - addr).toNat_lt, ?_⟩
    rw [UInt16.ofNat_toNat, UInt16.add_comm, UInt16.sub_add_cancel, ha]

namespace Machine

theorem printed_eq (mem : Memory) (n : Nat) (addr : UInt16) (acc : Array UInt8) :
    printed mem n addr acc =
      if DosFunction.sentinel ∈ mem.bytesFrom addr n then
        some (acc ++ ((mem.bytesFrom addr n).takeWhile (· != DosFunction.sentinel)).toArray)
      else none := by
  induction n generalizing addr acc with
  | zero => rfl
  | succ n ih =>
    rw [printed, mem.bytesFrom_succ]
    by_cases hb : mem.read addr = DosFunction.sentinel
    · rw [if_pos hb, hb, if_pos (List.mem_cons_self ..)]
      simp
    · rw [if_neg hb, ih]
      simp [hb, Ne.symm hb]

variable (m : Machine)

/-- A call of the operating system, once its number is in `ah`. -/
theorem dos_does (function : DosFunction) :
    (dos { m.behind 4 with
      regs := m.regs.set .ax (Word.ofBytes (Word.low m.regs.ax) function.number) }).Does m 4 (function.meaning m) := by
  have selected := Word.high_ofBytes (Word.low m.regs.ax) function.number
  have low := Word.low_ofBytes (Word.low m.regs.ax) function.number
  unfold DosFunction.meaning
  -- All that counts about the word in `ax` are its two bytes.
  generalize Word.ofBytes (Word.low m.regs.ax) function.number = v at selected low ⊢
  have regs : ∀ r, (m.regs.set .ax v).get r = _ := fun r => m.regs.get_set_lookup .ax r v
  have ax : (m.regs.set .ax v).ax = v := rfl
  unfold dos
  dsimp only
  rw [ax, selected, low]
  cases function with
  | printString =>
    have dx : (m.regs.set .ax v).dx = m.regs.dx := rfl
    have memory : (m.behind 4).memory = m.memory := rfl
    rw [if_pos rfl, printed_eq, dx, memory]
    dsimp only
    generalize m.memory.bytesFrom m.regs.dx 65536 = bytes
    by_cases hs : DosFunction.sentinel ∈ bytes
    · rw [if_pos hs, if_pos hs]
      refine ⟨regs, fun _ => rfl, rfl, ?_, (List.append_nil _).symm, rfl⟩
      rw [Array.toList_append, Array.toList_append]
      rfl
    · rw [if_neg hs, if_neg hs]
      trivial
  | exit =>
    rw [if_neg (by decide), if_pos rfl]
    exact ⟨rfl, Changes.quiet ⟨rfl, rfl⟩ ⟨rfl, rfl⟩ regs (fun _ => rfl) rfl rfl⟩

/-! ## Instructions -/

theorem step_of_shows {m : Machine} {instr : Instr} {op : Operation} (ho : instr.operation? = some op)
    (h : m.memory.Shows m.ip instr.encode) : m.step = (m.behind instr.encode.length).perform m.ip op := by
  rw [step, Memory.decode_encode ho h]
  rfl

theorem frameAddr_eq (disp : Int16) : m.frameAddr disp.toUInt16 = m.cellAddr disp := by
  rw [cellAddr, UInt16.ofInt_add, Word.ofInt_toNat, Word.ofInt_int16]
  rfl

end Machine

namespace Going

theorem address_past_int8 (behind : UInt16) (rel : Int8) :
    (past rel.toInt).address behind = behind + Word.signExtend rel.toUInt8 := by
  rw [address, UInt16.ofInt_add, Word.ofInt_toNat, Word.ofInt_int8]

theorem address_past_word (behind rel : UInt16) : (past rel.toNat).address behind = behind + rel := by
  rw [address, UInt16.ofInt_add, Word.ofInt_toNat, Word.ofInt_toNat]

end Going

namespace Instr

open Machine

variable {m : Machine}

/-- An instruction that is one operation. -/
theorem step_does {instr : Instr} {op : Operation} (ho : instr.operation? = some op)
    (h : m.memory.Shows m.ip instr.encode) : m.step.Does m instr.encode.length (instr.meaning m) := by
  rw [step_of_shows ho h]
  cases instr with
  | movImm dst value | loadAbs dst addr | movReg dst src =>
    cases ho
    exact Changes.set m _ dst _
  | storeAbs src addr =>
    cases ho
    exact Changes.store m _ addr _
  | loadFrame dst disp =>
    cases ho
    rw [meaning, ← m.frameAddr_eq]
    exact Changes.set m _ dst _
  | storeFrame src disp =>
    cases ho
    rw [meaning, ← m.frameAddr_eq]
    exact Changes.store m _ _ _
  | pushFrame disp =>
    cases ho
    rw [meaning, ← m.frameAddr_eq]
    exact Changes.push m _ _ .on
  | push src =>
    cases ho
    exact Changes.push m _ _ .on
  | pop dst =>
    cases ho
    exact Changes.pop m _ dst
  | addImm dst value =>
    cases ho
    have number : value.toInt = value.toUInt16.toInt16.toInt := by rw [Int16.toInt16_toUInt16]
    rw [meaning, number]
    exact Changes.result m _ dst (Word.ofInt_signed_add ..) (Flags.ofSum_eq ..)
  | subImm dst value =>
    cases ho
    have number : value.toInt = value.toUInt16.toInt16.toInt := by rw [Int16.toInt16_toUInt16]
    rw [meaning, number]
    exact Changes.result m _ dst (Word.ofInt_signed_sub ..) (Flags.ofDifference_eq ..)
  | add dst src =>
    cases ho
    exact Changes.result m _ dst (Word.ofInt_signed_add ..) (Flags.ofSum_eq ..)
  | sub dst src =>
    cases ho
    exact Changes.result m _ dst (Word.ofInt_signed_sub ..) (Flags.ofDifference_eq ..)
  | imul dst src =>
    cases ho
    have product : UInt16.ofInt (m.signed dst * m.signed src) = m.regs.get dst * m.regs.get src := by
      rw [UInt16.ofInt_mul, signed, signed, Word.ofInt_toInt16, Word.ofInt_toInt16]
    rw [meaning, product]
    exact Changes.set m _ dst _
  | cwd =>
    cases ho
    have sign : (m.signed .ax < 0) = (Flags.negative m.regs.ax = true) := by
      rw [Flags.negative_iff, decide_eq_true_eq]
      rfl
    simp only [meaning, sign]
    exact Changes.set m _ .dx _
  | idiv divisor =>
    cases ho
    exact m.divide_does _ _
  | cmp lhs rhs =>
    cases ho
    rw [meaning, signed, signed, ← Flags.ofDifference_eq]
    exact Changes.compare m _ _
  | xor dst src =>
    cases ho
    exact Changes.result m _ dst (Word.ofInt_toInt16 _) (Flags.ofResult_eq _)
  | test lhs rhs =>
    cases ho
    rw [meaning, ← Flags.ofResult_eq]
    exact Changes.compare m _ _
  | jcc cond rel =>
    cases ho
    have flags : (m.behind (jcc cond rel).encode.length).flags = m.flags := rfl
    rw [meaning, perform, flags]
    by_cases hc : cond.holds m.flags
    · rw [if_pos hc, if_pos hc]
      exact Changes.go m _ (Going.address_past_int8 _ rel).symm
    · rw [if_neg hc, if_neg hc]
      exact Changes.go m _ rfl
  | jmpShort rel =>
    cases ho
    exact Changes.go m _ (Going.address_past_int8 _ rel).symm
  | jmpNear rel =>
    cases ho
    exact Changes.go m _ (Going.address_past_word _ rel).symm
  | callReg target =>
    cases ho
    -- The target is read before the return address goes on the stack, which matters for `sp`.
    exact Changes.push m 2 (m.ip + 2) (.into (m.regs.get target))
  | jmpReg target =>
    cases ho
    exact Changes.go m _ rfl
  | ret =>
    cases ho
    exact Changes.ret m _
  | dosCall function => exact nomatch ho

/-- A call of the operating system: its first step loads the number, its second is the call. -/
theorem dosCall_does {function : DosFunction} (h : m.memory.Shows m.ip (dosCall function).encode) :
    m.step = .running ((m.behind 2).set .ax (Word.ofBytes (Word.low m.regs.ax) function.number)) ∧
      (m.stepFor 2).Does m 4 (function.meaning m) := by
  obtain ⟨number, call⟩ := Memory.decode_dosCall h
  have first : m.step = .running ((m.behind 2).set .ax (Word.ofBytes (Word.low m.regs.ax) function.number)) := by
    rw [step, number]
    rfl
  refine ⟨first, ?_⟩
  have called := m.dos_does function
  rw [stepFor, first]
  generalize Word.ofBytes (Word.low m.regs.ax) function.number = v at called ⊢
  have second : ((m.behind 2).set .ax v).step = dos { m.behind 4 with regs := m.regs.set .ax v } := by
    have decoded : ((m.behind 2).set .ax v).memory.decode ((m.behind 2).set .ax v).ip = .ok (.dos, m.ip + 4) := call
    rw [step, decoded]
    rfl
  rw [← second] at called
  rwa [← stepFor_one] at called

theorem does_meaning (instr : Instr) (h : m.memory.Shows m.ip instr.encode) :
    (m.stepFor instr.steps).Does m instr.encode.length (instr.meaning m) := by
  cases instr with
  | dosCall function => exact (dosCall_does h).2
  | _ =>
    show (m.stepFor 1).Does m _ _
    rw [m.stepFor_one]
    exact step_does rfl h

end Instr

/-! ## Instructions that do not complete -/

namespace Step.Does

variable {m : Machine} {size : Nat} {s : Step} {meaning : Meaning}

theorem faulted_iff (h : s.Does m size meaning) : (∃ f, s = .faulted f) ↔ ∃ f, meaning = .fault f := by
  constructor
  · rintro ⟨f, rfl⟩
    cases meaning with
    | fault f' => exact ⟨f', rfl⟩
    | effect e | exit code e | endless => exact h.elim
  · rintro ⟨f, rfl⟩
    cases s with
    | faulted f' => exact ⟨f', rfl⟩
    | running m' | exited code m' | endless => exact h.elim

theorem endless_iff (h : s.Does m size meaning) : s = .endless ↔ meaning = .endless := by
  constructor
  · rintro rfl
    cases meaning with
    | endless => rfl
    | effect e | exit code e | fault f => exact h.elim
  · rintro rfl
    cases s with
    | endless => rfl
    | running m' | exited code m' | faulted f => exact h.elim

end Step.Does

namespace Machine

variable (m : Machine) (d : Int)

theorem quotient_fault_iff :
    (∃ f, m.quotient d = .fault f) ↔ d = 0 ∨ m.dividend.tdiv d < -32768 ∨ 32767 < m.dividend.tdiv d := by
  unfold quotient
  dsimp only
  by_cases hd : d = 0
  · rw [if_pos hd]
    exact ⟨fun _ => .inl hd, fun _ => ⟨_, rfl⟩⟩
  · rw [if_neg hd]
    by_cases hq : m.dividend.tdiv d < -32768 ∨ 32767 < m.dividend.tdiv d
    · rw [if_pos hq]
      exact ⟨fun _ => .inr hq, fun _ => ⟨_, rfl⟩⟩
    · rw [if_neg hq]
      exact ⟨fun ⟨_, h⟩ => (nomatch h), fun h => absurd (h.resolve_left hd) hq⟩

theorem quotient_ne_endless : m.quotient d ≠ .endless := by
  intro h
  unfold quotient at h
  dsimp only at h
  split at h
  · exact nomatch h
  · split at h <;> exact nomatch h

end Machine

namespace DosFunction

variable (m : Machine)

theorem printString_endless_iff :
    printString.meaning m = .endless ↔ ∀ a, m.memory.read a ≠ sentinel := by
  have met : (∀ a, m.memory.read a ≠ sentinel) ↔ ¬ sentinel ∈ m.memory.bytesFrom m.regs.dx 65536 := by
    rw [Memory.mem_bytesFrom, not_exists]
  rw [met]
  unfold meaning
  dsimp only
  generalize m.memory.bytesFrom m.regs.dx 65536 = bytes
  by_cases hs : sentinel ∈ bytes
  · rw [if_pos hs]
    exact ⟨fun h => (nomatch h), fun h => absurd hs h⟩
  · rw [if_neg hs]
    exact ⟨fun _ => hs, fun _ => rfl⟩

theorem meaning_ne_fault (function : DosFunction) (f : Fault) : function.meaning m ≠ .fault f := by
  intro h
  unfold meaning at h
  cases function with
  | printString =>
    dsimp only at h
    generalize m.memory.bytesFrom m.regs.dx 65536 = bytes at h
    split at h <;> exact nomatch h
  | exit => exact nomatch h

end DosFunction

namespace Instr

variable (m : Machine)

theorem meaning_fault_iff (instr : Instr) :
    (∃ f, instr.meaning m = .fault f) ↔ ∃ divisor, instr = .idiv divisor ∧
      (m.signed divisor = 0 ∨ m.dividend.tdiv (m.signed divisor) < -32768 ∨
        32767 < m.dividend.tdiv (m.signed divisor)) := by
  constructor
  · rintro ⟨f, hf⟩
    cases instr with
    | idiv divisor => exact ⟨divisor, rfl, (m.quotient_fault_iff _).1 ⟨f, hf⟩⟩
    | dosCall function => exact absurd hf (function.meaning_ne_fault m f)
    | _ => exact nomatch hf
  · rintro ⟨divisor, rfl, h⟩
    exact (m.quotient_fault_iff _).2 h

theorem meaning_endless_iff (instr : Instr) :
    instr.meaning m = .endless ↔
      instr = .dosCall .printString ∧ ∀ a, m.memory.read a ≠ DosFunction.sentinel := by
  constructor
  · intro h
    cases instr with
    | idiv divisor => exact absurd h (m.quotient_ne_endless _)
    | dosCall function =>
      cases function with
      | printString => exact ⟨rfl, (DosFunction.printString_endless_iff m).1 h⟩
      | exit => exact nomatch h
    | _ => exact nomatch h
  · rintro ⟨rfl, h⟩
    exact (DosFunction.printString_endless_iff m).2 h

/-- Where the bytes of an instruction stand at `ip`, the processor does what the instruction means,
    in two steps for a call of the operating system and in one for all others. It does not complete
    only for a quotient that is no word and for a string without an end. -/
theorem executes_as_meant (instr : Instr) (m : Machine) (h : m.memory.Shows m.ip instr.encode) :
    (m.stepFor instr.steps).Does m instr.encode.length (instr.meaning m) ∧
      (∀ function, instr = .dosCall function → ∃ m', m.step = .running m' ∧
        m.Changes 2 { regs := [(.ax, Word.ofBytes (Word.low m.regs.ax) function.number)] } m') ∧
      ((∃ f, m.stepFor instr.steps = .faulted f) ↔ ∃ divisor, instr = .idiv divisor ∧
        (m.signed divisor = 0 ∨ m.dividend.tdiv (m.signed divisor) < -32768 ∨
          32767 < m.dividend.tdiv (m.signed divisor))) ∧
      (m.stepFor instr.steps = .endless ↔
        instr = .dosCall .printString ∧ ∀ a, m.memory.read a ≠ DosFunction.sentinel) := by
  have does := instr.does_meaning h
  refine ⟨does, ?_, does.faulted_iff.trans (instr.meaning_fault_iff m),
    does.endless_iff.trans (instr.meaning_endless_iff m)⟩
  rintro function rfl
  exact ⟨_, (dosCall_does h).1, Machine.Changes.set m 2 .ax _⟩

/-- The least word, and one to be taken from it. -/
def borrowing : Machine where
  memory := .ofBytes 0x100 #[0x83, 0xe8, 0x01]
  regs := { ax := 0x8000, cx := 7 }
  ip := 0x100

theorem borrowing_executes :
    borrowing.memory.Shows borrowing.ip (subImm .ax 1).encode ∧ ∃ m', borrowing.step = .running m' ∧
      m'.regs.get .ax = 0x7fff ∧ m'.regs.get .cx = 7 ∧ m'.flags = ⟨false, false, true⟩ ∧ m'.ip = 0x103 := by
  have shown : borrowing.memory.Shows borrowing.ip (subImm .ax 1).encode := by
    have bytes : (subImm .ax 1).encode = [0x83, 0xe8, 0x01] := by decide
    rw [bytes]
    simp only [borrowing, Memory.Shows, Memory.read_ofBytes]
    decide
  have meant : (subImm .ax 1).meaning borrowing =
      .effect { regs := [(.ax, 0x7fff)], flags := some ⟨false, false, true⟩ } := rfl
  have cx : borrowing.regs.get .cx = 7 := rfl
  have ip : borrowing.ip = 0x100 := rfl
  -- From here on the state stays closed, so that nothing runs it.
  generalize borrowing = m at shown meant cx ip ⊢
  obtain ⟨does, -, -, -⟩ := executes_as_meant (subImm .ax 1) m shown
  rw [meant, show (subImm .ax 1).steps = 1 from rfl, m.stepFor_one] at does
  cases hs : m.step with
  | running m' =>
    rw [hs] at does
    have left : m'.ip = m.ip + 3 := does.ip
    exact ⟨shown, m', rfl, does.regs .ax, (does.regs .cx).trans cx, does.flags, by rw [left, ip]; rfl⟩
  | exited code m' | faulted f | endless =>
    rw [hs] at does
    exact does.elim

end Instr

end DotCom
