/-
  DotCom.Proofs.Machine.Operators — the code of an operator does what the operator means
  (`comes_operator`): from the operands in `ax` and `bx` it leaves the result in `ax`, and touches
  neither memory nor stack.

  - `Flags.sign_bne_overflow`: the sign and the overflow of a difference differ exactly when the left
    operand is the smaller, as signed numbers.
  - `comes_fault`: a division without a quotient in a word stops the machine.
-/

import DotCom.Proofs.Machine.Blocks
import DotCom.Proofs.Semantics
import DotCom.Proofs.Words
import Mathlib.Data.Nat.Bitwise

namespace DotCom

/-! ## Flags -/

namespace Flags

theorem negative_eq_msb (w : UInt16) : negative w = w.toBitVec.msb := by
  have masked : (w &&& 0x8000).toNat = (w.toNat.testBit 15).toNat * 2 ^ 15 := by
    rw [UInt16.toNat_and]
    exact Nat.and_two_pow w.toNat 15
  rw [BitVec.msb_eq_decide, negative, Bool.eq_iff_iff, bne_iff_ne, decide_eq_true_iff, ne_eq,
    ← UInt16.toNat_inj, masked, Nat.testBit_eq_decide_div_mod_eq]
  have bit : w.toNat / 32768 % 2 = 1 ↔ 32768 ≤ w.toNat := by
    have := w.toNat_lt
    omega
  simpa using bit

/-- Sign and overflow of a difference differ exactly when the left operand is the smaller. -/
theorem sign_bne_overflow (a b : UInt16) :
    ((ofDifference a b).sign != (ofDifference a b).overflow) = decide (a.toInt16.toInt < b.toInt16.toInt) := by
  simp only [ofDifference, ofResult, negative_eq_msb, UInt16.toBitVec_and, UInt16.toBitVec_xor, UInt16.toBitVec_sub,
    BitVec.msb_and, BitVec.msb_xor]
  simp only [BitVec.msb_eq_decide, BitVec.toNat_sub, Word.toInt_toInt16]
  show (decide (32768 ≤ (65536 - b.toNat + a.toNat) % 65536) !=
    ((decide (32768 ≤ a.toNat) ^^ decide (32768 ≤ b.toNat)) &&
      (decide (32768 ≤ a.toNat) ^^ decide (32768 ≤ (65536 - b.toNat + a.toNat) % 65536)))) = _
  have ha := a.toNat_lt
  have hb := b.toNat_lt
  rcases Nat.lt_or_ge a.toNat 32768 with h1 | h1 <;> rcases Nat.lt_or_ge b.toNat 32768 with h2 | h2 <;>
    rcases Nat.lt_or_ge ((65536 - b.toNat + a.toNat) % 65536) 32768 with h3 | h3 <;>
    simp only [h1, h2, h3, Nat.not_le.2, Nat.not_lt.2, if_true, if_false, decide_true, decide_false] <;>
    simp <;> omega

theorem zero_ofDifference (a b : UInt16) : (ofDifference a b).zero = decide (a = b) := by
  show (a - b == 0) = decide (a = b)
  rw [Bool.eq_iff_iff, beq_iff_eq, decide_eq_true_iff]
  have ha := a.toNat_lt
  have hb := b.toNat_lt
  rw [← UInt16.toNat_inj, ← UInt16.toNat_inj, UInt16.toNat_sub, UInt16.toNat_zero]
  omega

end Flags

/-- What a condition asks of two words. -/
def Cond.onWords (a b : UInt16) : Cond → Bool
  | equal => a = b
  | notEqual => a ≠ b
  | less => a.toInt16.toInt < b.toInt16.toInt
  | greaterOrEqual => b.toInt16.toInt ≤ a.toInt16.toInt
  | lessOrEqual => a.toInt16.toInt ≤ b.toInt16.toInt
  | greater => b.toInt16.toInt < a.toInt16.toInt

theorem Word.toInt_toInt16_inj {a b : UInt16} : a.toInt16.toInt = b.toInt16.toInt ↔ a = b := by
  rw [Word.toInt_toInt16, Word.toInt_toInt16, ← UInt16.toNat_inj]
  have ha := a.toNat_lt
  have hb := b.toNat_lt
  split <;> split <;> omega

theorem Cond.holds_ofDifference (cond : Cond) (a b : UInt16) :
    cond.holds (Flags.ofDifference a b) = cond.onWords a b := by
  have less := Flags.sign_bne_overflow a b
  have notLess : ((Flags.ofDifference a b).sign == (Flags.ofDifference a b).overflow) =
      decide (b.toInt16.toInt ≤ a.toInt16.toInt) := by
    have flip : ∀ s o : Bool, (s == o) = !(s != o) := fun s o => (Bool.not_not (s == o)).symm
    rw [flip, less, ← decide_not, decide_eq_decide, Int.not_lt]
  have same := @Word.toInt_toInt16_inj a b
  cases cond with
  | equal => exact Flags.zero_ofDifference a b
  | notEqual => rw [holds, Flags.zero_ofDifference, ← decide_not]; rfl
  | less => exact less
  | greaterOrEqual => exact notLess
  | lessOrEqual =>
    rw [holds, less, Flags.zero_ofDifference, ← Bool.decide_or, onWords, decide_eq_decide, ← same]
    omega
  | greater =>
    rw [holds, notLess, Flags.zero_ofDifference, ← decide_not, ← Bool.decide_and, onWords, decide_eq_decide, ← same]
    omega

/-! ## Running an operator -/

/-- Two states that differ in no more than registers for values, flags and the next instruction. -/
structure Machine.Alike (m m' : Machine) : Prop where
  memory : m'.memory = m.memory
  sp : m'.regs.sp = m.regs.sp
  bp : m'.regs.bp = m.regs.bp
  output : m'.output = m.output
  returns : m'.returns = m.returns

variable {P : Placement} {i j : Nat} {m : Machine}

theorem comes_comparison {cond : Cond} (hb : P.Block i (comparison cond) j) (hm : m.memory.Carries P)
    (hip : m.ip = P.addr i) :
    Comes m fun m' => m'.ip = P.addr j ∧ m.Alike m' ∧ m'.regs.cx = m.regs.cx ∧
      m'.regs.ax = if cond.onWords m.regs.ax m.regs.bx then 1 else 0 := by
  have holds := cond.holds_ofDifference m.regs.ax m.regs.bx
  refine Comes.exec hb hm hip rfl rfl fun hb => ?_
  refine Comes.exec hb hm rfl rfl rfl fun hb => ?_
  refine Comes.jcc hb hm rfl (fun hc hb => ?_) (fun hc hb => ?_)
  · have past : P.addr j = _ := (congrArg P.addr hb.2).trans (P.addr_add _ _)
    exact Comes.here ⟨past.symm, ⟨rfl, rfl, rfl, rfl, rfl⟩, rfl, (if_pos (holds.symm.trans hc)).symm⟩
  · refine Comes.exec hb hm rfl rfl rfl fun hb => ?_
    refine Comes.here ⟨by rw [← hb.nil]; rfl, ⟨rfl, rfl, rfl, rfl, rfl⟩, rfl, ?_⟩
    rw [if_neg (Bool.eq_false_iff.1 (holds.symm.trans hc))]
    exact UInt16.xor_self

theorem Flags.negative_iff (w : UInt16) : Flags.negative w = decide (w.toInt16.toInt < 0) := by
  rw [negative_eq_msb, BitVec.msb_eq_decide, decide_eq_decide, Word.toInt_toInt16]
  show 32768 ≤ w.toNat ↔ _
  have := w.toNat_lt
  split <;> omega

/-- The dividend that `cwd` leaves is `ax` itself. -/
theorem widened (a : UInt16) :
    Int.bmod (65536 * ((if Flags.negative a then 0xffff else 0 : UInt16).toNat : Int) + a.toNat) 0x100000000 =
      a.toInt16.toInt := by
  have := a.toNat_lt
  rw [Word.toInt_toInt16, Int.bmod_def]
  by_cases h : a.toNat < 32768
  · have positive : Flags.negative a = false := by
      rw [Flags.negative_iff, Word.toInt_toInt16, if_pos h, decide_eq_false_iff_not]
      omega
    have top : (if false then 0xffff else 0 : UInt16).toNat = 0 := rfl
    rw [if_pos h, positive, top]
    split <;> omega
  · have negative : Flags.negative a = true := by
      rw [Flags.negative_iff, Word.toInt_toInt16, if_neg h, decide_eq_true_iff]
      omega
    have top : (if true then 0xffff else 0 : UInt16).toNat = 65535 := rfl
    rw [if_neg h, negative, top]
    split <;> omega

/-- Of quotients of words only one is not a word. -/
theorem tdiv_bounds {n d : Int} (hn : -32768 ≤ n ∧ n ≤ 32767) (hd : d ≠ 0) (h : ¬ (n = -32768 ∧ d = -1)) :
    -32768 ≤ n.tdiv d ∧ n.tdiv d ≤ 32767 := by
  have size : (n.tdiv d).natAbs = n.natAbs / d.natAbs := Int.natAbs_tdiv n d
  rcases Nat.lt_or_ge d.natAbs 2 with h1 | h1
  · rcases (show d = 1 ∨ d = -1 by omega) with rfl | rfl
    · rw [Int.tdiv_one]
      exact hn
    · rw [Int.tdiv_neg, Int.tdiv_one]
      omega
  · have half : n.natAbs / d.natAbs ≤ n.natAbs / 2 := Nat.div_le_div_left h1 (by decide)
    omega

theorem Machine.divide_eq (m : Machine) (addr : UInt16) {d c : UInt16}
    (hdx : m.regs.dx = if Flags.negative m.regs.ax then 0xffff else 0)
    (hc : BinaryOp.div.onWords m.regs.ax d = some c) :
    ∃ r, m.divide d addr = .running ((m.set .ax c).set .dx r) := by
  have bounds : -32768 ≤ m.regs.ax.toInt16.toInt ∧ m.regs.ax.toInt16.toInt ≤ 32767 := by
    have := m.regs.ax.toNat_lt
    rw [Word.toInt_toInt16]
    split <;> omega
  simp only [BinaryOp.onWords] at hc
  split at hc
  · exact nomatch hc
  · rename_i hd
    rw [not_or] at hd
    have quotient := tdiv_bounds bounds hd.1 hd.2
    cases hc
    refine ⟨UInt16.ofInt (m.regs.ax.toInt16.toInt.tmod d.toInt16.toInt), ?_⟩
    simp only [divide, hdx, widened]
    rw [if_neg hd.1, if_neg (by omega), if_neg (by omega)]

theorem comes_division (hb : P.Block i [.cwd, .idiv .bx] j) (hm : m.memory.Carries P) (hip : m.ip = P.addr i)
    {c : UInt16} (hc : BinaryOp.div.onWords m.regs.ax m.regs.bx = some c) :
    Comes m fun m' => m'.ip = P.addr j ∧ m.Alike m' ∧ m'.regs.cx = m.regs.cx ∧ m'.regs.ax = c := by
  refine Comes.exec hb hm hip rfl rfl fun hb => ?_
  let wide := { m with ip := P.addr (i + Instr.cwd.size) }.set .dx (if Flags.negative m.regs.ax then 0xffff else 0)
  obtain ⟨r, hr⟩ := Machine.divide_eq
    { wide with ip := P.addr (i + Instr.cwd.size + (Instr.idiv .bx).size) } wide.ip rfl hc
  exact Comes.exec hb hm rfl rfl hr fun hb => Comes.here ⟨congrArg P.addr hb.nil, ⟨rfl, rfl, rfl, rfl, rfl⟩, rfl, rfl⟩

theorem comes_operator {op : BinaryOp} (hb : P.Block i op.instrs j) (hm : m.memory.Carries P) (hip : m.ip = P.addr i)
    {c : UInt16} (hc : op.onWords m.regs.ax m.regs.bx = some c) :
    Comes m fun m' => m'.ip = P.addr j ∧ m.Alike m' ∧ m'.regs.cx = m.regs.cx ∧ m'.regs.ax = c := by
  cases op with
  | add | sub | mul =>
    cases hc
    refine Comes.exec hb hm hip rfl rfl
      fun hb => Comes.here ⟨congrArg P.addr hb.nil, ⟨rfl, rfl, rfl, rfl, rfl⟩, rfl, rfl⟩
  | div => exact comes_division hb hm hip hc
  | eq | ne | lt | le | gt | ge =>
    cases hc
    refine (comes_comparison hb hm hip).mono fun m' h => ⟨h.1, h.2.1, h.2.2.1, h.2.2.2.trans ?_⟩
    simp only [Cond.onWords, truth, decide_eq_true_eq]
  | mod | shl | shr | bitAnd | bitXor | bitOr | logicAnd | logicOr | subscript => exact nomatch hc

theorem reaches_operator {op : BinaryOp} (hb : P.Block i op.instrs j) (hm : m.memory.Carries P) (hip : m.ip = P.addr i)
    {c : UInt16} (hc : op.onWords m.regs.ax m.regs.bx = some c) :
    Reaches P m fun m' => m'.ip = P.addr j ∧ m.Alike m' ∧ m'.regs.ax = c :=
  Reaches.of_comes ((comes_operator hb hm hip hc).mono fun _ h => ⟨h.1, h.2.1, h.2.2.2⟩)

/-! ## Division without a result -/

/-- The machine stands at a division that has no quotient in a word. -/
def Machine.CannotDivide (m : Machine) : Prop :=
  (m.regs.bx = 0 ∧ m.step = .faulted (.divideByZero m.ip)) ∨
    (m.regs.ax = 0x8000 ∧ m.regs.bx = 0xffff ∧ m.step = .faulted (.divideOverflow m.ip))

theorem Machine.divide_faults (m : Machine) (addr : UInt16) {d : UInt16}
    (hdx : m.regs.dx = if Flags.negative m.regs.ax then 0xffff else 0) (hc : BinaryOp.div.onWords m.regs.ax d = none) :
    (d = 0 ∧ m.divide d addr = .faulted (.divideByZero addr)) ∨
      (m.regs.ax = 0x8000 ∧ d = 0xffff ∧ m.divide d addr = .faulted (.divideOverflow addr)) := by
  simp only [BinaryOp.onWords] at hc
  split at hc
  · rename_i hd
    rcases hd with hd | ⟨hn, hd⟩
    · refine .inl ⟨Word.toInt_toInt16_inj.1 hd, ?_⟩
      simp only [divide, hd, if_true]
    · refine .inr ⟨Word.toInt_toInt16_inj.1 hn, Word.toInt_toInt16_inj.1 hd, ?_⟩
      simp only [divide, hdx, widened, hn, hd]
      rfl
  · cases hc

/-- An operator without a result stops the machine, if it has code. -/
theorem comes_fault {op : BinaryOp} (hb : P.Block i op.instrs j) (hs : op.Supported) (hm : m.memory.Carries P)
    (hip : m.ip = P.addr i) (hc : op.onWords m.regs.ax m.regs.bx = none) : Comes m Machine.CannotDivide := by
  cases op with
  | div =>
    refine Comes.exec hb hm hip rfl rfl fun hb => Comes.here ?_
    let wide := { m with ip := P.addr (i + Instr.cwd.size) }.set .dx (if Flags.negative m.regs.ax then 0xffff else 0)
    have stepped := Machine.step_of_holds (m := wide) hm hb.cons.1 rfl rfl
    have faults := Machine.divide_faults
      { wide with ip := P.addr (i + Instr.cwd.size + (Instr.idiv .bx).size) } wide.ip rfl hc
    exact faults.imp (fun h => ⟨h.1, stepped.trans h.2⟩) fun h => ⟨h.1, h.2.1, stepped.trans h.2.2⟩
  | add | sub | mul | eq | ne | lt | le | gt | ge => cases hc
  | mod | shl | shr | bitAnd | bitXor | bitOr | logicAnd | logicOr | subscript => exact absurd hs (by decide)

end DotCom
