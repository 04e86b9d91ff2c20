/-
  DotCom.Proofs.Machine.Conditions — conditional jumps after a comparison. The flags of a difference tell the signed
  order of its operands, and stay as they are until the next arithmetic; so a jump may stand any number of moves,
  pushes and pops behind the comparison that it asks about (`Machine.conditions_survive`).

  The instructions are told by their bytes, in all forms that the processor understands.
-/

import DotCom.Proofs.Machine.Operators

namespace DotCom

/-- What a condition asks of two numbers. -/
def Cond.asks (x y : Int) : Cond → Bool
  | equal => x = y
  | notEqual => x ≠ y
  | less => x < y
  | greaterOrEqual => y ≤ x
  | lessOrEqual => x ≤ y
  | greater => y < x

theorem Cond.onWords_eq_asks (a b : UInt16) (cond : Cond) :
    cond.onWords a b = cond.asks a.toInt16.toInt b.toInt16.toInt := by
  have same := @Word.toInt_toInt16_inj a b
  cases cond with
  | equal => exact decide_eq_decide.2 same.symm
  | notEqual => exact decide_eq_decide.2 (not_congr same.symm)
  | _ => rfl

/-- An operation that moves a word or a byte, pushes or pops. -/
def Operation.IsMove : Operation → Prop
  | .move .. | .moveHigh _ | .push _ | .pop _ => True
  | _ => False

namespace Machine

/-- The first byte of the next instruction. -/
def opcode (m : Machine) : UInt8 := m.memory.read m.ip

/-- The next instruction takes `rhs` from `lhs`, or compares the two. -/
inductive Subtracts (m : Machine) : (lhs rhs : UInt16) → Prop
  /-- A register from a register or a word of memory, `sub` and `cmp`. -/
  | register {o : Operand} : m.opcode = 0x29 ∨ m.opcode = 0x39 → m.memory.operand (m.ip + 1) = .ok o →
      Subtracts m (m.fetch o.place) (m.regs.get (Reg.ofCode o.field))
  /-- A word from `ax`. -/
  | accumulator : m.opcode = 0x2d → Subtracts m m.regs.ax (m.memory.readWord (m.ip + 1))
  /-- A word from a register or a word of memory. -/
  | word {o : Operand} : m.opcode = 0x81 → m.memory.operand (m.ip + 1) = .ok o → o.field = 5 →
      Subtracts m (m.fetch o.place) (m.memory.readWord o.next)
  /-- A signed byte from a register or a word of memory. -/
  | byte {o : Operand} : m.opcode = 0x83 → m.memory.operand (m.ip + 1) = .ok o → o.field = 5 →
      Subtracts m (m.fetch o.place) (Word.signExtend (m.memory.read o.next))

/-- The next instruction moves a word or a byte, or pushes or pops a word. -/
inductive Moves (m : Machine) : Prop
  | immediate : 0xb8 ≤ m.opcode → m.opcode ≤ 0xbf → Moves m
  | mov : m.opcode ∈ [0xb4, 0x89, 0x8b, 0xa1, 0xa3] → Moves m
  | push : 0x50 ≤ m.opcode → m.opcode ≤ 0x57 → Moves m
  | pop : 0x58 ≤ m.opcode → m.opcode ≤ 0x5f → Moves m
  | pushOperand {o : Operand} : m.opcode = 0xff → m.memory.operand (m.ip + 1) = .ok o → o.field = 6 → Moves m

/-- Any number of moves, pushes and pops. -/
inductive MovesTo : Machine → Machine → Prop
  | here (m : Machine) : MovesTo m m
  | next {m m' m'' : Machine} : m.Moves → m.step = .running m' → MovesTo m' m'' → MovesTo m m''

variable {m m' : Machine} {lhs rhs : UInt16}

/-! ## Comparison -/

theorem flags_put (m : Machine) (p : Place) (v : UInt16) : (m.put p v).flags = m.flags := by
  cases p <;> rfl

/-- A difference sets its flags, whether it is kept or not. -/
theorem flags_arith {op : Arith} (h : op = .sub ∨ op = .cmp) (m : Machine) (dst : Place) (src : Source) :
    (m.arith op dst src).flags = .ofDifference (m.fetch dst) (m.value src) := by
  rcases h with rfl | rfl
  · exact flags_put ..
  · rfl

theorem Subtracts.decode (h : m.Subtracts lhs rhs) :
    ∃ op dst src next, m.memory.decode m.ip = .ok (.arith op dst src, next) ∧ (op = .sub ∨ op = .cmp) ∧
      m.fetch dst = lhs ∧ m.value src = rhs := by
  cases h with
  | @register o opcode operand =>
    refine opcode.elim (fun opcode => ⟨.sub, o.place, .place (.reg (Reg.ofCode o.field)), o.next, ?_,
      .inl rfl, rfl, rfl⟩)
      (fun opcode => ⟨.cmp, o.place, .place (.reg (Reg.ofCode o.field)), o.next, ?_, .inr rfl, rfl, rfl⟩)
    all_goals
      rw [Machine.opcode] at opcode
      simp only [Memory.decode, opcode, Memory.regArith, operand]
      rfl
  | accumulator opcode =>
    refine ⟨.sub, .reg .ax, .imm _, m.ip + 1 + 2, ?_, .inl rfl, rfl, rfl⟩
    rw [Machine.opcode] at opcode
    simp only [Memory.decode, opcode]
    rfl
  | @word o opcode operand field =>
    refine ⟨.sub, o.place, .imm _, o.next + 2, ?_, .inl rfl, rfl, rfl⟩
    rw [Machine.opcode] at opcode
    simp only [Memory.decode, opcode, Memory.immArith, operand, bind, Except.bind, field]
    rfl
  | @byte o opcode operand field =>
    refine ⟨.sub, o.place, .imm _, o.next + 1, ?_, .inl rfl, rfl, rfl⟩
    rw [Machine.opcode] at opcode
    simp only [Memory.decode, opcode, Memory.immArith, operand, bind, Except.bind, field]
    rfl

/-- A comparison is always done, and leaves the flags of its operands. -/
theorem Subtracts.step (h : m.Subtracts lhs rhs) : ∃ m', m.step = .running m' ∧ m'.flags = .ofDifference lhs rhs := by
  obtain ⟨op, dst, src, next, decoded, difference, left, right⟩ := h.decode
  have fetched : { m with ip := next }.fetch dst = lhs := by
    rw [← left]
    cases dst <;> rfl
  have taken : { m with ip := next }.value src = rhs := by
    rw [← right]
    cases src with
    | place p => cases p <;> rfl
    | imm v => rfl
  refine ⟨{ m with ip := next }.arith op dst src, by rw [Machine.step, decoded]; rfl, ?_⟩
  rw [flags_arith difference, fetched, taken]

/-! ## Moves -/

theorem flags_of_isMove {op : Operation} (h : op.IsMove) {addr : UInt16} (done : m.perform addr op = .running m') :
    m'.flags = m.flags := by
  cases op with
  | move dst src =>
    cases done
    exact flags_put ..
  | moveHigh v | push src | pop dst =>
    cases done
    rfl
  | _ => exact h.elim

/-- The opcodes of a register lie in a row of eight. -/
theorem opcode_div_eight {b row : UInt8} (low : row * 8 ≤ b) (high : b ≤ row * 8 + 7) (fits : row < 32) :
    b / 8 = row := by
  have first : row.toNat * 8 % 2 ^ 8 ≤ b.toNat := low
  have last : b.toNat ≤ (row.toNat * 8 % 2 ^ 8 + 7) % 2 ^ 8 := high
  have few : row.toNat < 32 := fits
  apply UInt8.toNat_inj.1
  show b.toNat / 8 = row.toNat
  omega

theorem Moves.isMove (h : m.Moves) {op : Operation} {next : UInt16} (decoded : m.memory.decode m.ip = .ok (op, next)) :
    op.IsMove := by
  cases h with
  | immediate low high =>
    have row : m.memory.read m.ip / 8 = 0x17 := opcode_div_eight low high (by decide)
    simp only [Memory.decode, row] at decoded
    cases decoded
    trivial
  | push low high =>
    have row : m.memory.read m.ip / 8 = 0x0a := opcode_div_eight low high (by decide)
    simp only [Memory.decode, row] at decoded
    cases decoded
    trivial
  | pop low high =>
    have row : m.memory.read m.ip / 8 = 0x0b := opcode_div_eight low high (by decide)
    simp only [Memory.decode, row] at decoded
    cases decoded
    trivial
  | pushOperand opcode operand field =>
    rw [Machine.opcode] at opcode
    simp only [Memory.decode, opcode, operand, bind, Except.bind, field] at decoded
    cases decoded
    trivial
  | mov opcode =>
    simp only [Machine.opcode, List.mem_cons, List.not_mem_nil, or_false] at opcode
    rcases opcode with opcode | opcode | opcode | opcode | opcode
    case inr.inl | inr.inr.inl =>
      simp only [Memory.decode, opcode] at decoded
      cases operand : m.memory.operand (m.ip + 1) with
      | error f =>
        rw [operand] at decoded
        cases decoded
      | ok o =>
        rw [operand] at decoded
        cases decoded
        trivial
    all_goals
      simp only [Memory.decode, opcode] at decoded
      cases decoded
      trivial

theorem Moves.flags (h : m.Moves) (stepped : m.step = .running m') : m'.flags = m.flags := by
  rw [Machine.step] at stepped
  cases decoded : m.memory.decode m.ip with
  | error f =>
    rw [decoded] at stepped
    cases stepped
  | ok out =>
    obtain ⟨op, next⟩ := out
    rw [decoded] at stepped
    exact flags_of_isMove (m := { m with ip := next }) (h.isMove decoded) stepped

theorem MovesTo.flags (h : MovesTo m m') : m'.flags = m.flags := by
  induction h with
  | here m => rfl
  | next moves stepped _ ih => exact ih.trans (moves.flags stepped)

/-! ## Jumps -/

theorem step_of_jcc {cond : Cond} (h : m.opcode = cond.opcode) :
    m.step = .running { m with
      ip := if cond.holds m.flags then m.ip + 2 + Word.signExtend (m.memory.read (m.ip + 1)) else m.ip + 2 } := by
  have decoded : m.memory.decode m.ip = .ok (.jumpIf cond (Word.signExtend (m.memory.read (m.ip + 1))), m.ip + 2) := by
    have two : m.ip + 1 + 1 = m.ip + 2 := by rw [UInt16.add_assoc]; rfl
    rw [opcode] at h
    cases cond <;> simp only [Memory.decode, h, two] <;> rfl
  rw [step, decoded]
  dsimp only [perform]
  split <;> rfl

/-- Signed conditions survive until they are tested. An instruction that takes `rhs` from `lhs`, or compares them, is
    done; and when any number of moves, pushes and pops have been done after it, a conditional jump is taken exactly
    when its condition holds of the two as signed numbers. -/
theorem conditions_survive (h : m.Subtracts lhs rhs) :
    ∃ compared, m.step = .running compared ∧ ∀ tested, MovesTo compared tested →
      ∀ cond : Cond, tested.opcode = cond.opcode →
        tested.step = .running { tested with
          ip := if cond.asks lhs.toInt16.toInt rhs.toInt16.toInt then
              tested.ip + 2 + Word.signExtend (tested.memory.read (tested.ip + 1))
            else tested.ip + 2 } := by
  obtain ⟨compared, stepped, flags⟩ := h.step
  refine ⟨compared, stepped, fun tested moved cond jump => ?_⟩
  rw [step_of_jcc jump, moved.flags, flags, cond.holds_ofDifference, cond.onWords_eq_asks]

/-- The least word is compared with one; then `ax` is overwritten and pushed, and a jump asks whether it was less. -/
def overwriting (memory : Memory) : Machine where
  memory := memory
  regs := { ax := 0x8000, bx := 1, sp := 0xfffe }
  ip := 0x100

theorem conditions_survive_overwriting :
    ∃ m compared tested : Machine, m.Subtracts 0x8000 1 ∧ m.step = .running compared ∧ MovesTo compared tested ∧
      tested.regs.ax = 2 ∧ tested.regs.sp = 0xfffc ∧ tested.opcode = Cond.less.opcode ∧
      tested.step = .running { tested with ip := 0x10d } := by
  obtain ⟨mem, h0, h1, h2, h3, h4, h5, h6, h7, -⟩ :
      ∃ mem : Memory, mem.Shows 0x100 [0x39, 0xd8, 0xb8, 0x02, 0x00, 0x50, 0x7c, 0x05] := by
    refine ⟨.ofBytes 0x100 #[0x39, 0xd8, 0xb8, 0x02, 0x00, 0x50, 0x7c, 0x05], ?_⟩
    simp only [Memory.Shows, Memory.read_ofBytes]
    decide
  have operands : mem.operand 0x101 = .ok ⟨Reg.bx.code, .reg .ax, 0x102⟩ := Memory.operand_reg .bx h1
  have subtracts : (overwriting mem).Subtracts 0x8000 1 := .register (m := overwriting mem) (.inr h0) operands
  have compares : mem.decode 0x100 = .ok (.arith .cmp (.reg .ax) (.place (.reg .bx)), 0x102) :=
    Memory.decode_encode (by rfl) (show mem.Shows 0x100 (Instr.cmp .ax .bx).encode from ⟨h0, h1, trivial⟩)
  have overwrites : mem.decode 0x102 = .ok (.move (.reg .ax) (.imm 2), 0x105) :=
    Memory.decode_encode (by rfl) (show mem.Shows 0x102 (Instr.movImm .ax 2).encode from ⟨h2, h3, h4, trivial⟩)
  have pushes : mem.decode 0x105 = .ok (.push (.reg .ax), 0x106) :=
    Memory.decode_encode (by rfl) (show mem.Shows 0x105 (Instr.push .ax).encode from ⟨h5, trivial⟩)
  let compared : Machine := { overwriting mem with ip := 0x102, flags := .ofDifference 0x8000 1 }
  let overwritten : Machine := { compared with ip := 0x105, regs := { compared.regs with ax := 2 } }
  let tested : Machine := { overwritten with ip := 0x106 }.push 2
  have stepped : (overwriting mem).step = .running compared := by
    rw [step, show (overwriting mem).memory.decode (overwriting mem).ip = _ from compares]
    rfl
  have moved : MovesTo compared tested := by
    have opcode : compared.opcode = 0xb8 := h2
    have opcode' : overwritten.opcode = 0x50 := h5
    have first : compared.step = .running overwritten := by
      rw [step, show compared.memory.decode compared.ip = _ from overwrites]
      rfl
    have second : overwritten.step = .running tested := by
      rw [step, show overwritten.memory.decode overwritten.ip = _ from pushes]
      rfl
    refine .next (.immediate ?_ ?_) first (.next (.push ?_ ?_) second (.here tested))
    · rw [opcode]; decide
    · rw [opcode]; decide
    · rw [opcode']; decide
    · rw [opcode']; decide
  have top : (0xfffe : UInt16) - 2 = 0xfffc := by decide
  have kept (a : UInt16) (ha : a.toNat < 0xfffc) : tested.memory.read a = mem.read a := by
    show (mem.writeWord (0xfffe - 2) 2).read a = mem.read a
    rw [top]
    exact Memory.read_writeWord_outside (by decide) (.inl ha)
  have asks : tested.opcode = Cond.less.opcode := (kept 0x106 (by decide)).trans h6
  obtain ⟨_, stepped', survives⟩ := conditions_survive subtracts
  obtain rfl := Step.running.inj (stepped.symm.trans stepped')
  have jumps := survives tested moved .less asks
  rw [if_pos (by decide), show tested.memory.read (tested.ip + 1) = 5 from (kept 0x107 (by decide)).trans h7] at jumps
  exact ⟨overwriting mem, compared, tested, subtracts, stepped, moved, rfl, top, asks, jumps⟩

end Machine

end DotCom
