/-
  DotCom.Proofs.Machine.Decoding — the processor reads off memory the instructions that were
  written there (`decode_encode`). A call of the operating system is two operations
  (`decode_dosCall`).
-/

import DotCom.Machine.Run
import DotCom.Proofs.Layout

namespace DotCom

namespace Memory

/-- Memory holds `bytes` from an address on. -/
def Shows (mem : Memory) (a : UInt16) : List UInt8 → Prop
  | [] => True
  | b :: bs => mem.read a = b ∧ mem.Shows (a + 1) bs

end Memory

/-- What an instruction that is one operation does. -/
def Instr.operation? : Instr → Option Operation
  | .movImm dst value => some (.move (.reg dst) (.imm value))
  | .loadAbs dst addr => some (.move (.reg dst) (.place (.abs addr)))
  | .storeAbs src addr => some (.move (.abs addr) (.place (.reg src)))
  | .loadFrame dst disp => some (.move (.reg dst) (.place (.frame disp.toUInt16)))
  | .storeFrame src disp => some (.move (.frame disp.toUInt16) (.place (.reg src)))
  | .pushFrame disp => some (.push (.frame disp.toUInt16))
  | .push src => some (.push (.reg src))
  | .pop dst => some (.pop dst)
  | .addImm dst value => some (.arith .add (.reg dst) (.imm value.toUInt16))
  | .subImm dst value => some (.arith .sub (.reg dst) (.imm value.toUInt16))
  | .movReg dst src => some (.move (.reg dst) (.place (.reg src)))
  | .add dst src => some (.arith .add (.reg dst) (.place (.reg src)))
  | .sub dst src => some (.arith .sub (.reg dst) (.place (.reg src)))
  | .imul dst src => some (.multiply dst (.reg src))
  | .cwd => some .widen
  | .idiv divisor => some (.divide (.reg divisor))
  | .cmp lhs rhs => some (.arith .cmp (.reg lhs) (.place (.reg rhs)))
  | .xor dst src => some (.arith .xor (.reg dst) (.place (.reg src)))
  | .test lhs rhs => some (.arith .test (.reg lhs) (.place (.reg rhs)))
  | .jcc cond rel => some (.jumpIf cond (Word.signExtend rel.toUInt8))
  | .jmpShort rel => some (.jumpBy (Word.signExtend rel.toUInt8))
  | .jmpNear rel => some (.jumpBy rel)
  | .callReg target => some (.call (.reg target))
  | .jmpReg target => some (.jump (.reg target))
  | .ret => some .ret
  | .dosCall _ => none

variable {mem : Memory} {a : UInt16}

/-! ## Parts of instructions -/

theorem Word.signExtend_low {v : Int16} (h : Instr.isNarrow v) :
    Word.signExtend (Word.low v.toUInt16) = v.toUInt16 := by
  have low : (Word.low v.toUInt16).toInt8 = v.toInt8 := by
    apply Int8.toBitVec_inj.1
    simp [Word.low, BitVec.signExtend_eq_setWidth_of_le]
  have wide : v.toInt8.toInt16 = v := by
    apply Int16.toInt_inj.1
    rw [Instr.isNarrow, Bool.and_eq_true, decide_eq_true_iff, decide_eq_true_iff] at h
    have h1 : -128 ≤ v.toInt := Int16.le_iff_toInt_le.1 h.1
    have h2 : v.toInt ≤ 127 := Int16.le_iff_toInt_le.1 h.2
    rw [Int8.toInt_toInt16, Int16.toInt_toInt8]
    exact Int.bmod_eq_of_le h1 (Int.lt_add_one_of_le h2)
  rw [Word.signExtend, low, wide]

namespace Memory

theorem Shows.word {w : UInt16} (h : mem.Shows a (Word.bytes w)) : mem.readWord a = w := by
  rw [readWord, h.1, h.2.1, Word.ofBytes_low_high]

/-- The operand byte of two registers. Where the middle field is a part of the opcode, `field` is the
    register with that number. -/
theorem operand_reg (field : Reg) {rm : Reg} (h : mem.read a = Instr.regOperand field.code rm) :
    mem.operand a = .ok ⟨field.code, .reg rm, a + 1⟩ := by
  rw [operand, h]
  cases field <;> cases rm <;> rfl

theorem operand_frame (field : Reg) {disp : Int16} (h : mem.Shows a (Instr.frameOperand field.code disp)) :
    mem.operand a =
      .ok ⟨field.code, .frame disp.toUInt16, a + UInt16.ofNat (Instr.frameOperand field.code disp).length⟩ := by
  unfold Instr.frameOperand at h ⊢
  by_cases hn : Instr.isNarrow disp
  · rw [if_pos hn] at h ⊢
    rw [operand, h.1, h.2.1, Word.signExtend_low hn]
    cases field <;> rfl
  · rw [if_neg hn] at h ⊢
    rw [operand, h.1, Shows.word h.2]
    cases field <;> rfl

theorem operand_abs (field : Reg) {addr : UInt16} (h : mem.Shows a (Instr.absOperand field.code :: Word.bytes addr)) :
    mem.operand a = .ok ⟨field.code, .abs addr, a + 3⟩ := by
  rw [operand, h.1, Shows.word h.2]
  cases field <;> rfl

/-! ## Instructions -/

/-- Arithmetic with an immediate, the operation told by the middle field of its operand byte. -/
theorem immArith_wide (field : Reg) (dst : Reg) (value : Int16)
    (h : mem.Shows (a + 1) (Instr.regOperand field.code dst :: Word.bytes value.toUInt16)) :
    mem.immArith 0x81 a =
      if field.code = 0 then .ok (.arith .add (.reg dst) (.imm value.toUInt16), a + 4)
      else if field.code = 5 then .ok (.arith .sub (.reg dst) (.imm value.toUInt16), a + 4)
      else .error (.arithGroup 0x81 field.code a) := by
  have four : a + 1 + 1 + 2 = a + 4 := by rw [UInt16.add_assoc, UInt16.add_assoc]; rfl
  simp only [immArith, operand_reg field h.1, bind, Except.bind, if_neg (show ¬ (0x81 : UInt8) = 0x83 by decide),
    Shows.word h.2, four]
  cases field <;> rfl

theorem immArith_narrow (field : Reg) (dst : Reg) {value : Int16} (hn : Instr.isNarrow value)
    (h : mem.Shows (a + 1) [Instr.regOperand field.code dst, Word.low value.toUInt16]) :
    mem.immArith 0x83 a =
      if field.code = 0 then .ok (.arith .add (.reg dst) (.imm value.toUInt16), a + 3)
      else if field.code = 5 then .ok (.arith .sub (.reg dst) (.imm value.toUInt16), a + 3)
      else .error (.arithGroup 0x83 field.code a) := by
  have three : a + 1 + 1 + 1 = a + 3 := by rw [UInt16.add_assoc, UInt16.add_assoc]; rfl
  simp only [immArith, operand_reg field h.1, bind, Except.bind, if_true, h.2.1, Word.signExtend_low hn, three]
  cases field <;> rfl

theorem decode_immArith (field : Reg) (hf : field = .ax ∨ field = .bp) {axOpcode : UInt8} (dst : Reg) (value : Int16)
    (ha : axOpcode = if field = .ax then 0x05 else 0x2d)
    (h : mem.Shows a (Instr.immArith field.code axOpcode dst value)) :
    mem.decode a = .ok (.arith (if field = .ax then .add else .sub) (.reg dst) (.imm value.toUInt16),
      a + UInt16.ofNat (Instr.immArith field.code axOpcode dst value).length) := by
  unfold Instr.immArith at h ⊢
  by_cases hn : Instr.isNarrow value
  · rw [if_pos hn] at h ⊢
    simp only [decode, h.1, immArith_narrow field dst hn h.2]
    rcases hf with rfl | rfl <;> rfl
  · rw [if_neg hn] at h ⊢
    by_cases hax : dst = .ax
    · rw [if_pos hax] at h ⊢
      subst hax ha
      rcases hf with rfl | rfl <;> simp only [decode, h.1, Shows.word h.2, UInt16.add_assoc] <;> rfl
    · rw [if_neg hax] at h ⊢
      simp only [decode, h.1, immArith_wide field dst value h.2]
      rcases hf with rfl | rfl <;> rfl

theorem decode_encode {instr : Instr} {op : Operation} (ho : instr.operation? = some op)
    (h : mem.Shows a instr.encode) :
    mem.decode a = .ok (op, a + UInt16.ofNat instr.size) := by
  have behind : ∀ (b : UInt8) (bs : List UInt8), a + UInt16.ofNat (b :: bs).length =
      a + 1 + UInt16.ofNat bs.length := by
    intro b bs
    rw [List.length_cons, UInt16.ofNat_add, UInt16.add_comm (UInt16.ofNat bs.length), ← UInt16.add_assoc]
    rfl
  cases instr with
  | movImm dst value =>
    cases ho
    simp only [decode, h.1, Shows.word h.2, UInt16.add_assoc]
    cases dst <;> rfl
  | loadAbs dst addr =>
    cases ho
    rw [Instr.size]
    unfold Instr.encode at h ⊢
    by_cases hax : dst = .ax
    · simp only [if_pos hax] at h ⊢
      subst hax
      simp only [decode, h.1, Shows.word h.2, UInt16.add_assoc]
      rfl
    · simp only [if_neg hax] at h ⊢
      simp only [decode, h.1, operand_abs dst h.2, UInt16.add_assoc]
      cases dst <;> rfl
  | storeAbs src addr =>
    cases ho
    rw [Instr.size]
    unfold Instr.encode at h ⊢
    by_cases hax : src = .ax
    · simp only [if_pos hax] at h ⊢
      subst hax
      simp only [decode, h.1, Shows.word h.2, UInt16.add_assoc]
      rfl
    · simp only [if_neg hax] at h ⊢
      simp only [decode, h.1, operand_abs src h.2, UInt16.add_assoc]
      cases src <;> rfl
  | loadFrame dst disp =>
    cases ho
    rw [Instr.size, Instr.encode, behind]
    simp only [decode, h.1, operand_frame dst h.2]
    cases dst <;> rfl
  | storeFrame src disp =>
    cases ho
    rw [Instr.size, Instr.encode, behind]
    simp only [decode, h.1, operand_frame src h.2]
    cases src <;> rfl
  | pushFrame disp =>
    cases ho
    rw [Instr.size, Instr.encode, behind]
    simp only [decode, h.1, operand_frame .si h.2]
    rfl
  | push src =>
    cases ho
    simp only [decode, h.1]
    cases src <;> rfl
  | pop dst =>
    cases ho
    simp only [decode, h.1]
    cases dst <;> rfl
  | addImm dst value =>
    cases ho
    exact decode_immArith .ax (.inl rfl) dst value rfl h
  | subImm dst value =>
    cases ho
    exact decode_immArith .bp (.inr rfl) dst value rfl h
  | movReg dst src =>
    cases ho
    simp only [decode, h.1, operand_reg src h.2.1, UInt16.add_assoc]
    cases src <;> rfl
  | add dst src | sub dst src | xor dst src | cmp dst src | test dst src =>
    cases ho
    simp only [decode, h.1, regArith, operand_reg src h.2.1, UInt16.add_assoc]
    cases src <;> rfl
  | imul dst src =>
    cases ho
    simp only [decode, h.1, h.2.1, operand_reg dst h.2.2.1]
    simp only [UInt16.add_assoc]
    cases dst <;> rfl
  | idiv divisor =>
    cases ho
    simp only [decode, h.1, operand_reg .di h.2.1, UInt16.add_assoc]
    rfl
  | callReg target =>
    cases ho
    simp only [decode, h.1, operand_reg .dx h.2.1, UInt16.add_assoc]
    rfl
  | jmpReg target =>
    cases ho
    simp only [decode, h.1, operand_reg .sp h.2.1, UInt16.add_assoc]
    rfl
  | jcc cond rel =>
    cases ho
    simp only [decode, h.1, h.2.1, UInt16.add_assoc]
    cases cond <;> rfl
  | jmpShort rel =>
    cases ho
    simp only [decode, h.1, h.2.1, UInt16.add_assoc]
    rfl
  | jmpNear rel =>
    cases ho
    simp only [decode, h.1, Shows.word h.2, UInt16.add_assoc]
    rfl
  | cwd | ret =>
    cases ho
    simp only [decode, h.1]
    rfl
  | dosCall function => exact nomatch ho

theorem decode_dosCall {function : DosFunction} (h : mem.Shows a (Instr.dosCall function).encode) :
    mem.decode a = .ok (.moveHigh function.number, a + 2) ∧ mem.decode (a + 2) = .ok (.dos, a + 4) := by
  obtain ⟨h0, h1, h2, h3, -⟩ := h
  have two : a + 1 + 1 = a + 2 := by rw [UInt16.add_assoc]; rfl
  rw [two] at h2 h3
  constructor
  · simp only [decode, h0, h1, UInt16.add_assoc]
    rfl
  · simp only [decode, h2, h3]
    simp only [UInt16.add_assoc]
    rfl

end Memory

end DotCom
