/-
  DotCom.Proofs.Machine.Blocks — running code that stands in an image. As long as memory carries
  the image, the machine does the instructions that a placement tells, one after the other
  (`Machine.step_of_holds`); a word written behind the image leaves it there (`Carries.writeWord`).

  - `Comes`: the machine comes to a state with a property. `Reaches`: it does, unless its stack falls below
    a limit.
-/

import DotCom.Proofs.Machine.Decoding
import DotCom.Proofs.Placement
import DotCom.Proofs.Words

namespace DotCom

/-! ## Memory and words -/

namespace Memory

theorem read_writeWord_of_ne {mem : Memory} {a b v : UInt16} (h0 : a ≠ b) (h1 : a + 1 ≠ b) :
    (mem.writeWord a v).read b = mem.read b := by
  rw [writeWord, read_write_ne _ _ h1, read_write_ne _ _ h0]

/-- A word that does not wrap round is seen only at its two addresses. -/
theorem read_writeWord_outside {mem : Memory} {a b v : UInt16} (ha : a.toNat + 2 ≤ 65536)
    (h : b.toNat < a.toNat ∨ a.toNat + 2 ≤ b.toNat) : (mem.writeWord a v).read b = mem.read b := by
  have next : (a + 1).toNat = a.toNat + 1 := Word.toNat_add rfl (show a.toNat + 1 < 65536 by omega)
  refine read_writeWord_of_ne (fun e => ?_) (fun e => ?_)
  · subst e
    omega
  · subst e
    omega

/-- A word pushed is not seen from the old top of the stack up. -/
theorem read_writeWord_push {mem : Memory} {sp v a : UInt16} (low : 2 ≤ sp.toNat) (ha : sp.toNat ≤ a.toNat) :
    (mem.writeWord (sp - 2) v).read a = mem.read a := by
  have hlow : (sp - 2).toNat = sp.toNat - 2 := UInt16.toNat_sub_of_le _ _ low
  have hlt := sp.toNat_lt
  exact read_writeWord_outside (by omega) (by omega)

/-- Words read the same where their bytes do. -/
theorem readWord_congr {mem mem' : Memory} {a : UInt16} (h0 : mem'.read a = mem.read a)
    (h1 : mem'.read (a + 1) = mem.read (a + 1)) : mem'.readWord a = mem.readWord a := by
  rw [readWord, readWord, h0, h1]

/-- Words read the same where bytes do from some address up. -/
theorem readWord_of_kept {mem mem' : Memory} {low : Nat} (kept : ∀ a : UInt16, low ≤ a.toNat → mem'.read a = mem.read a)
    {a : UInt16} (ha : low ≤ a.toNat) (hlt : a.toNat + 1 < 65536) : mem'.readWord a = mem.readWord a := by
  have next : (a + 1).toNat = a.toNat + 1 := Word.toNat_add rfl hlt
  exact readWord_congr (kept a ha) (kept _ (by omega))

theorem read_ofBytes (start : Nat) (bytes : Array UInt8) (a : UInt16) :
    (ofBytes start bytes).read a = if start ≤ a.toNat then bytes.getD (a.toNat - start) 0 else 0 := by
  simp only [read, ofBytes, Vector.getElem_ofFn]

end Memory

/-! ## Images in memory -/

namespace Placement

/-- The address of an offset. -/
def addr (P : Placement) (pos : Nat) : UInt16 := P.base + UInt16.ofNat pos

theorem addr_add (P : Placement) (i n : Nat) : P.addr (i + n) = P.addr i + UInt16.ofNat n := by
  rw [addr, addr, UInt16.ofNat_add, UInt16.add_assoc]

theorem toNat_addr {P : Placement} {i : Nat} (h : P.base.toNat + i < 65536) : (P.addr i).toNat = P.base.toNat + i := by
  rw [addr, UInt16.toNat_add, UInt16.toNat_ofNat']
  omega

theorem Addresses.eq_addr {P : Placement} {address : UInt16} {pos : Nat} (h : P.Addresses address pos) :
    address = P.addr pos := by
  rw [Addresses] at h
  have := address.toNat_lt
  rw [← UInt16.toNat_inj, toNat_addr (by omega), h]

/-- Where a jump by a signed byte lands. -/
theorem addr_add_signExtend (P : Placement) {k l : Nat} {rel : Int8} (h : (l : Int) = k + rel.toInt) :
    P.addr k + Word.signExtend rel.toUInt8 = P.addr l := by
  have signed : (Word.signExtend rel.toUInt8).toInt16.toInt = rel.toInt := by
    rw [Word.signExtend, Int8.toInt8_toUInt8, Int16.toInt16_toUInt16, Int8.toInt_toInt16]
  rw [Word.toInt_toInt16] at signed
  rw [← UInt16.toNat_inj, UInt16.toNat_add, addr, addr, UInt16.toNat_add, UInt16.toNat_add, UInt16.toNat_ofNat',
    UInt16.toNat_ofNat']
  have := (Word.signExtend rel.toUInt8).toNat_lt
  split at signed <;> omega

theorem Block.cons {P : Placement} {i j : Nat} {instr : Instr} {is : List Instr} (h : P.Block i (instr :: is) j) :
    P.Holds i instr.encode ∧ P.Block (i + instr.size) is j := by
  obtain ⟨hh, rfl⟩ := h
  rw [encodeAll_cons] at hh ⊢
  obtain ⟨hi, his⟩ := hh.append
  exact ⟨hi, his, by rw [List.length_append, Nat.add_assoc]; rfl⟩

/-- A block of an image that is at hand. -/
theorem Holds.of_drop {P : Placement} {i : Nat} {bytes : List UInt8} (hi : i ≤ P.image.length)
    (h : bytes <+: P.image.drop i) : P.Holds i bytes := by
  obtain ⟨after, e⟩ := h
  refine ⟨P.image.take i, after, ?_, List.length_take_of_le hi⟩
  rw [List.append_assoc, e, List.take_append_drop]

theorem Block.of_drop {P : Placement} {i j : Nat} {is : List Instr} (hi : i ≤ P.image.length)
    (h : encodeAll is <+: P.image.drop i) (hj : j = i + (encodeAll is).length) : P.Block i is j :=
  ⟨.of_drop hi h, hj⟩

theorem Block.nil {P : Placement} {i j : Nat} (h : P.Block i [] j) : i = j := h.2.symm

end Placement

/-- Memory carries the image of a placement. -/
def Memory.Carries (mem : Memory) (P : Placement) : Prop :=
  ∀ k b, P.image[k]? = some b → mem.read (P.addr k) = b

variable {P : Placement} {i j : Nat}

namespace Memory.Carries

theorem shows {mem : Memory} (h : mem.Carries P) {bytes : List UInt8} (hh : P.Holds i bytes) :
    mem.Shows (P.addr i) bytes := by
  obtain ⟨before, after, e, rfl⟩ := hh
  induction bytes generalizing before with
  | nil => trivial
  | cons b bytes ih =>
    refine ⟨h before.length b (by simp [e]), ?_⟩
    have rest := ih (before ++ [b]) (by simp [e])
    rwa [List.length_append, List.length_singleton, P.addr_add] at rest

/-- A word behind the image leaves the image as it is. -/
theorem writeWord {mem : Memory} (h : mem.Carries P) {a : UInt16} (v : UInt16)
    (segment : P.base.toNat + P.image.length ≤ segmentSize)
    (ha : P.base.toNat + P.image.length ≤ a.toNat) (room : a.toNat + 2 ≤ 65536) : (mem.writeWord a v).Carries P := by
  intro k b hk
  obtain ⟨hlt, -⟩ := List.getElem?_eq_some_iff.1 hk
  have hseg : P.base.toNat + P.image.length ≤ 65536 := segment
  rw [read_writeWord_outside room]
  · exact h k b hk
  · rw [P.toNat_addr (by omega)]
    omega

theorem ofBytes {start : Nat} {image : Array UInt8} (hi : P.image = image.toList) (hs : P.base.toNat = start)
    (segment : P.base.toNat + P.image.length ≤ segmentSize) : (Memory.ofBytes start image).Carries P := by
  intro k b hk
  obtain ⟨hlt, -⟩ := List.getElem?_eq_some_iff.1 hk
  have hseg : P.base.toNat + P.image.length ≤ 65536 := segment
  rw [read_ofBytes, P.toNat_addr (by omega), hs, if_pos (Nat.le_add_right _ _), Nat.add_sub_cancel_left,
    Array.getD_eq_getD_getElem?, ← Array.getElem?_toList, ← hi, hk, Option.getD_some]

end Memory.Carries

/-- What a jump that lands somewhere does. -/
theorem Instr.Lands.operation {jump : Instr} {k l : Nat} (h : jump.Lands k l) (P : Placement) :
    ∃ rel, jump.operation? = some (.jumpBy rel) ∧ P.addr k + rel = P.addr l := by
  cases jump with
  | jmpShort rel => exact ⟨_, rfl, P.addr_add_signExtend h⟩
  | jmpNear rel =>
    refine ⟨rel, rfl, ?_⟩
    rw [show l = k + rel.toNat from h, P.addr_add, UInt16.ofNat_toNat]
  | _ => exact h.elim

/-! ## Steps -/

namespace Machine

theorem decode_of_holds {m : Machine} (hm : m.memory.Carries P) {instr : Instr} {op : Operation}
    (hh : P.Holds i instr.encode) (hip : m.ip = P.addr i) (ho : instr.operation? = some op) :
    m.memory.decode m.ip = .ok (op, P.addr (i + instr.size)) := by
  have decoded := Memory.decode_encode ho (hip ▸ hm.shows hh)
  rw [decoded, P.addr_add, hip]

theorem step_of_holds {m : Machine} (hm : m.memory.Carries P) {instr : Instr} {op : Operation}
    (hh : P.Holds i instr.encode) (hip : m.ip = P.addr i) (ho : instr.operation? = some op) :
    m.step = { m with ip := P.addr (i + instr.size) }.perform m.ip op := by
  rw [step, decode_of_holds hm hh hip ho]

theorem step_of_dosCall {m : Machine} (hm : m.memory.Carries P) {function : DosFunction}
    (hh : P.Holds i (Instr.dosCall function).encode) (hip : m.ip = P.addr i) :
    m.step = .running ({ m with ip := P.addr (i + 2) }.set .ax (Word.ofBytes (Word.low m.regs.ax) function.number)) ∧
      ∀ m' : Machine, m'.memory.Carries P → m'.ip = P.addr (i + 2) →
        m'.step = { m' with ip := P.addr (i + 4) }.dos := by
  constructor
  · rw [step, (Memory.decode_dosCall (hip ▸ hm.shows hh)).1, P.addr_add, hip]
    rfl
  · intro m' hm' hip'
    have decoded := (Memory.decode_dosCall (hm'.shows hh)).2
    rw [step, hip', P.addr_add, P.addr_add, show UInt16.ofNat 2 = 2 from rfl, decoded]
    rfl

/-- The machine after `n` steps, if it gets that far. -/
def after : Nat → Machine → Option Machine
  | 0, m => some m
  | n + 1, m =>
    match m.step with
    | .running m' => after n m'
    | _ => none

theorem after_succ {m m' : Machine} (h : m.step = .running m') (n : Nat) : m.after (n + 1) = m'.after n := by
  rw [after, h]

theorem after_add {m m' : Machine} {n : Nat} (h : m.after n = some m') (k : Nat) : m.after (n + k) = m'.after k := by
  induction n generalizing m with
  | zero =>
    cases h
    rw [Nat.zero_add]
  | succ n ih =>
    rw [Nat.succ_add]
    cases hs : m.step with
    | running m1 =>
      rw [after_succ hs] at h ⊢
      exact ih h
    | exited _ _ | faulted _ | endless =>
      rw [after, hs] at h
      exact nomatch h

end Machine

/-! ## Runs -/

/-- The machine comes to a state with the property `Q`. -/
def Comes (m : Machine) (Q : Machine → Prop) : Prop := ∃ n m', m.after n = some m' ∧ Q m'

namespace Comes

variable {m m' : Machine} {Q R : Machine → Prop}

theorem here (h : Q m) : Comes m Q := ⟨0, m, rfl, h⟩

theorem step (hs : m.step = .running m') (h : Comes m' Q) : Comes m Q := by
  obtain ⟨n, m'', hn, hq⟩ := h
  exact ⟨n + 1, m'', by rw [Machine.after_succ hs, hn], hq⟩

theorem bind (h : Comes m Q) (k : ∀ m', Q m' → Comes m' R) : Comes m R := by
  obtain ⟨n, m', hn, hq⟩ := h
  obtain ⟨n', m'', hn', hr⟩ := k m' hq
  exact ⟨n + n', m'', by rw [Machine.after_add hn, hn'], hr⟩

theorem mono (h : Comes m Q) (k : ∀ m', Q m' → R m') : Comes m R := h.bind fun m' hq => here (k m' hq)

/-- One instruction of a block. -/
theorem exec {instr : Instr} {is : List Instr} {op : Operation} (hb : P.Block i (instr :: is) j)
    (hm : m.memory.Carries P) (hip : m.ip = P.addr i) (ho : instr.operation? = some op)
    (hr : { m with ip := P.addr (i + instr.size) }.perform m.ip op = .running m')
    (next : P.Block (i + instr.size) is j → Comes m' Q) : Comes m Q := by
  obtain ⟨hh, his⟩ := hb.cons
  exact step ((Machine.step_of_holds hm hh hip ho).trans hr) (next his)

/-- A conditional jump, taken or not. -/
theorem jcc {cond : Cond} {rel : Int8} {is : List Instr} (hb : P.Block i (.jcc cond rel :: is) j)
    (hm : m.memory.Carries P) (hip : m.ip = P.addr i)
    (taken : cond.holds m.flags = true → P.Block (i + 2) is j →
      Comes { m with ip := P.addr (i + 2) + Word.signExtend rel.toUInt8 } Q)
    (passed : cond.holds m.flags = false → P.Block (i + 2) is j → Comes { m with ip := P.addr (i + 2) } Q) :
    Comes m Q := by
  cases hc : cond.holds m.flags with
  | true => exact exec hb hm hip rfl (congrArg Step.running (if_pos hc)) (taken hc)
  | false => exact exec hb hm hip rfl (congrArg Step.running (if_neg (Bool.eq_false_iff.1 hc))) (passed hc)

/-- Where a jump lands. -/
theorem jump {jump : Instr} {k l : Nat} (hb : P.Block i [jump] k) (hj : jump.Lands k l) (hm : m.memory.Carries P)
    (hip : m.ip = P.addr i) (next : Comes { m with ip := P.addr l } Q) : Comes m Q := by
  obtain ⟨rel, ho, target⟩ := hj.operation P
  refine exec hb hm hip ho rfl fun hb => ?_
  rw [← hb.nil] at target
  rw [← target] at next
  exact next

end Comes

/-- The address behind the image. -/
def Placement.stop (P : Placement) : Nat := P.base.toNat + P.image.length

/-- Where an image lies so that a stack above it never wraps round. -/
structure Placement.Sits (P : Placement) : Prop where
  segment : P.base.toNat + P.image.length ≤ segmentSize
  base : 4 ≤ P.base.toNat

theorem Placement.Sits.stop {P : Placement} (hP : P.Sits) : 2 ≤ P.stop :=
  Nat.le_trans (Nat.le_trans (by decide) hP.base) (Nat.le_add_right _ _)

/-- The machine comes to a state with the property `Q`, or its stack falls below the end of the image. -/
def Reaches (P : Placement) (m : Machine) (Q : Machine → Prop) : Prop :=
  ∃ n m', m.after n = some m' ∧ (Q m' ∨ m'.regs.sp.toNat < P.stop)

namespace Reaches

variable {m m' : Machine} {Q R : Machine → Prop}

theorem here (h : Q m) : Reaches P m Q := ⟨0, m, rfl, .inl h⟩

theorem low (h : m.regs.sp.toNat < P.stop) : Reaches P m Q := ⟨0, m, rfl, .inr h⟩

/-- From here on the stack is above the image. -/
theorem above (h : P.stop ≤ m.regs.sp.toNat → Reaches P m Q) : Reaches P m Q := by
  by_cases hs : P.stop ≤ m.regs.sp.toNat
  · exact h hs
  · exact low (Nat.lt_of_not_le hs)

theorem step (hs : m.step = .running m') (h : Reaches P m' Q) : Reaches P m Q := Comes.step hs h

theorem bind (h : Reaches P m Q) (k : ∀ m', Q m' → Reaches P m' R) : Reaches P m R := by
  obtain ⟨n, m', hn, hq | hlow⟩ := h
  · obtain ⟨n', m'', hn', hr⟩ := k m' hq
    exact ⟨n + n', m'', by rw [Machine.after_add hn, hn'], hr⟩
  · exact ⟨n, m', hn, .inr hlow⟩

theorem mono (h : Reaches P m Q) (k : ∀ m', Q m' → R m') : Reaches P m R := h.bind fun m' hq => here (k m' hq)

/-- One instruction of a block. -/
theorem exec {instr : Instr} {is : List Instr} {op : Operation} (hb : P.Block i (instr :: is) j)
    (hm : m.memory.Carries P) (hip : m.ip = P.addr i) (ho : instr.operation? = some op)
    (hr : { m with ip := P.addr (i + instr.size) }.perform m.ip op = .running m')
    (next : P.Block (i + instr.size) is j → Reaches P m' Q) : Reaches P m Q := Comes.exec hb hm hip ho hr next

theorem jcc {cond : Cond} {rel : Int8} {is : List Instr} (hb : P.Block i (.jcc cond rel :: is) j)
    (hm : m.memory.Carries P) (hip : m.ip = P.addr i)
    (taken : cond.holds m.flags = true → P.Block (i + 2) is j →
      Reaches P { m with ip := P.addr (i + 2) + Word.signExtend rel.toUInt8 } Q)
    (passed : cond.holds m.flags = false → P.Block (i + 2) is j → Reaches P { m with ip := P.addr (i + 2) } Q) :
    Reaches P m Q := Comes.jcc hb hm hip taken passed

/-- Code that never looks at the stack. -/
theorem of_comes (h : Comes m Q) : Reaches P m Q := Comes.mono h fun _ hq => .inl hq

end Reaches

end DotCom
