/-
  DotCom.Proofs.Machine.Streams — the bytes of instructions tell the instructions. The processor is the reader: where
  the bytes of an instruction stand, it makes out an operation and the bytes behind it, whatever these are, and the
  operation with its length leaves one instruction only (`Operation.opens?`).

  - `Instr.encode_append_inj`: an instruction is cut off the front of a stream in one way.
  - `Instr.streams_decodable`: so streams with the same bytes are the same.
-/

import DotCom.Proofs.Machine.Blocks

namespace DotCom

/-- The instruction that starts with an operation of a given length. Only the length tells the two forms of a jump
    apart; the number of a service is set in `ah` by its call alone. -/
def Operation.opens? (size : UInt16) : Operation → Option Instr
  | .move (.reg dst) (.imm value) => some (.movImm dst value)
  | .move (.reg dst) (.place (.reg src)) => some (.movReg dst src)
  | .move (.reg dst) (.place (.abs addr)) => some (.loadAbs dst addr)
  | .move (.reg dst) (.place (.frame disp)) => some (.loadFrame dst disp.toInt16)
  | .move (.abs addr) (.place (.reg src)) => some (.storeAbs src addr)
  | .move (.frame disp) (.place (.reg src)) => some (.storeFrame src disp.toInt16)
  | .moveHigh number => some (.dosCall (if number = DosFunction.exit.number then .exit else .printString))
  | .push (.reg src) => some (.push src)
  | .push (.frame disp) => some (.pushFrame disp.toInt16)
  | .pop dst => some (.pop dst)
  | .call (.reg target) => some (.callReg target)
  | .jump (.reg target) => some (.jmpReg target)
  | .arith .add (.reg dst) (.imm value) => some (.addImm dst value.toInt16)
  | .arith .sub (.reg dst) (.imm value) => some (.subImm dst value.toInt16)
  | .arith .add (.reg dst) (.place (.reg src)) => some (.add dst src)
  | .arith .sub (.reg dst) (.place (.reg src)) => some (.sub dst src)
  | .arith .xor (.reg dst) (.place (.reg src)) => some (.xor dst src)
  | .arith .cmp (.reg lhs) (.place (.reg rhs)) => some (.cmp lhs rhs)
  | .arith .test (.reg lhs) (.place (.reg rhs)) => some (.test lhs rhs)
  | .multiply dst (.reg src) => some (.imul dst src)
  | .widen => some .cwd
  | .divide (.reg divisor) => some (.idiv divisor)
  | .jumpIf cond rel => some (.jcc cond (Word.low rel).toInt8)
  | .jumpBy rel => some (if size = 2 then .jmpShort (Word.low rel).toInt8 else .jmpNear rel)
  | .ret => some .ret
  | _ => none

theorem Word.low_signExtend (b : UInt8) : Word.low (Word.signExtend b) = b := by
  apply UInt8.toBitVec_inj.1
  show BitVec.setWidth 8 (BitVec.signExtend 16 b.toBitVec) = b.toBitVec
  apply BitVec.eq_of_getLsbD_eq
  intro i hi
  have : i < 16 := by omega
  simp only [BitVec.getLsbD_setWidth, BitVec.getLsbD_signExtend, hi, this, decide_true, Bool.true_and, if_true]

namespace Instr

/-- An instruction takes one to four bytes. -/
theorem size_bounds (i : Instr) : 1 ≤ i.size ∧ i.size ≤ 4 := by
  have frame (field : UInt8) (disp : Int16) : (frameOperand field disp).length ≤ 3 := by
    unfold frameOperand
    split <;> simp
  have imm (field axOpcode : UInt8) (dst : Reg) (value : Int16) :
      1 ≤ (immArith field axOpcode dst value).length ∧ (immArith field axOpcode dst value).length ≤ 4 := by
    unfold immArith
    split
    · simp
    · split <;> simp
  cases i with
  | loadAbs dst addr | storeAbs src addr =>
    rw [size, encode]
    split <;> simp
  | loadFrame dst disp | storeFrame src disp => exact ⟨Nat.le_add_left .., Nat.succ_le_succ (frame _ disp)⟩
  | pushFrame disp => exact ⟨Nat.le_add_left .., Nat.succ_le_succ (frame 6 disp)⟩
  | addImm dst value => exact imm 0 0x05 dst value
  | subImm dst value => exact imm 5 0x2d dst value
  | _ => simp [size, encode]

theorem opens?_operation {i : Instr} {op : Operation} (h : i.operation? = some op) :
    op.opens? (UInt16.ofNat i.size) = some i := by
  have short (rel : Int8) : (Word.low (Word.signExtend rel.toUInt8)).toInt8 = rel := by
    rw [Word.low_signExtend, Int8.toInt8_toUInt8]
  cases i with
  | jcc cond rel =>
    cases h
    exact congrArg (fun r => some (jcc cond r)) (short rel)
  | jmpShort rel =>
    cases h
    exact congrArg (fun r => some (jmpShort r)) (short rel)
  | loadFrame dst disp =>
    cases h
    exact congrArg (fun d => some (loadFrame dst d)) (Int16.toInt16_toUInt16 disp)
  | storeFrame src disp =>
    cases h
    exact congrArg (fun d => some (storeFrame src d)) (Int16.toInt16_toUInt16 disp)
  | pushFrame disp =>
    cases h
    exact congrArg (fun d => some (pushFrame d)) (Int16.toInt16_toUInt16 disp)
  | addImm dst value =>
    cases h
    exact congrArg (fun v => some (addImm dst v)) (Int16.toInt16_toUInt16 value)
  | subImm dst value =>
    cases h
    exact congrArg (fun v => some (subImm dst v)) (Int16.toInt16_toUInt16 value)
  | dosCall function => cases h
  | _ =>
    cases h
    rfl

/-- Where the bytes of an instruction stand, the processor reads an operation that opens no other. -/
theorem opens?_decode {mem : Memory} {a : UInt16} (i : Instr) (h : mem.Shows a i.encode) :
    ∃ op size, mem.decode a = .ok (op, a + size) ∧ op.opens? size = some i := by
  cases known : i.operation? with
  | some op => exact ⟨op, _, Memory.decode_encode known h, opens?_operation known⟩
  | none =>
    cases i with
    | dosCall function =>
      refine ⟨_, 2, (Memory.decode_dosCall h).1, ?_⟩
      cases function <;> rfl
    | _ => cases known

theorem eq_of_shows {mem : Memory} {a : UInt16} {i j : Instr} (hi : mem.Shows a i.encode) (hj : mem.Shows a j.encode) :
    i = j := by
  obtain ⟨op, size, first, opens⟩ := opens?_decode i hi
  obtain ⟨op', size', second, opens'⟩ := opens?_decode j hj
  rw [first, Except.ok.injEq, Prod.mk.injEq, UInt16.add_right_inj] at second
  obtain ⟨rfl, rfl⟩ := second
  exact Option.some.inj (opens.symm.trans opens')

/-- Two instructions at the front of one stream of bytes are the same, and so is what follows them. -/
theorem encode_append_inj {i j : Instr} {s t : List UInt8} (h : i.encode ++ s = j.encode ++ t) : i = j ∧ s = t := by
  -- Memory takes no more than a segment of the stream, but both instructions lie within the first four bytes.
  let P : Placement := ⟨(i.encode ++ s).take 4, 0, []⟩
  have : P.image.length ≤ 4 := List.length_take_le ..
  have carries : (Memory.ofBytes 0 P.image.toArray).Carries P :=
    .ofBytes (List.toList_toArray ..).symm rfl (show 0 + P.image.length ≤ 65536 by omega)
  have shown (k : Instr) (hk : k.encode <+: i.encode ++ s) : (Memory.ofBytes 0 P.image.toArray).Shows 0 k.encode :=
    carries.shows (.of_drop (Nat.zero_le _) (List.prefix_take_iff.2 ⟨hk, k.size_bounds.2⟩))
  obtain rfl : i = j := eq_of_shows (shown i (List.prefix_append ..)) (shown j (h ▸ List.prefix_append ..))
  exact ⟨rfl, List.append_cancel_left h⟩

theorem encodeAll_cons_ne_nil (i : Instr) (is : List Instr) : encodeAll (i :: is) ≠ [] := by
  intro h
  have none : i.size = 0 := congrArg List.length (List.append_eq_nil_iff.1 h).1
  have := i.size_bounds
  omega

theorem encodeAll_inj {is js : List Instr} (h : encodeAll is = encodeAll js) : is = js := by
  induction is generalizing js with
  | nil =>
    cases js with
    | nil => rfl
    | cons j js => exact absurd h.symm (encodeAll_cons_ne_nil j js)
  | cons i is ih =>
    cases js with
    | nil => exact absurd h (encodeAll_cons_ne_nil i is)
    | cons j js =>
      obtain ⟨rfl, rest⟩ := encode_append_inj h
      rw [ih rest]

/-- Instruction streams can be told from their bytes: two streams with the same bytes are the same. No instruction
    has the bytes of another, or bytes that those of another start with. -/
theorem streams_decodable :
    (∀ is js : List Instr, encodeAll is = encodeAll js → is = js) ∧ ∀ i j : Instr, i.encode <+: j.encode → i = j := by
  refine ⟨fun is js h => encodeAll_inj h, ?_⟩
  rintro i j ⟨rest, h⟩
  exact (encode_append_inj (h.trans (List.append_nil _).symm)).1

/-- A wide and a narrow immediate, a cell of the frame, and a call of the operating system that starts as no other
    instruction does. -/
theorem streams_decodable_mixed :
    encodeAll [.subImm .ax (-200), .subImm .dx (-128), .storeFrame .bx 127, .dosCall .exit] =
      [0x2d, 0x38, 0xff, 0x83, 0xea, 0x80, 0x89, 0x5e, 0x7f, 0xb4, 0x4c, 0xcd, 0x21] ∧
    ∀ is, encodeAll is = [0x2d, 0x38, 0xff, 0x83, 0xea, 0x80, 0x89, 0x5e, 0x7f, 0xb4, 0x4c, 0xcd, 0x21] →
      is = [.subImm .ax (-200), .subImm .dx (-128), .storeFrame .bx 127, .dosCall .exit] := by
  have bytes : encodeAll [.subImm .ax (-200), .subImm .dx (-128), .storeFrame .bx 127, .dosCall .exit] =
      [0x2d, 0x38, 0xff, 0x83, 0xea, 0x80, 0x89, 0x5e, 0x7f, 0xb4, 0x4c, 0xcd, 0x21] := by decide
  exact ⟨bytes, fun is h => streams_decodable.1 is _ (h.trans bytes.symm)⟩

end Instr

end DotCom
