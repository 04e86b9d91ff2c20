/-
  DotCom.Proofs.Lowering.Values — lowering an expression appends exactly its code, when it is well
  formed and there is room, and is refused otherwise (`Expr.emits`).
-/

import DotCom.Proofs.Lowering.Steps
import DotCom.Proofs.Slots
import DotCom.Proofs.WellFormed

namespace DotCom

/-- Lowering stands inside a function, with a frame that declarations have built. -/
structure Ready (s : Generator) (frame : Frame) (rest : Frames) : Prop where
  frames : s.frames = frame :: rest
  sound : frame.Sound
  room : s.Fits 0
  segment : s.image.capacity ≤ segmentSize

theorem Ready.extend {s : Generator} {frame : Frame} {rest : Frames} (h : Ready s frame rest) {bs : List UInt8}
    (hf : s.Fits bs.length) : Ready (s.extend bs s.frames) frame rest where
  frames := h.frames
  sound := h.sound
  room := s.fits_extend hf
  segment := h.segment

variable {s : Generator} {frame : Frame} {rest : Frames}

/-! ## Leaves -/

theorem find?_not_byte_eq_none_iff {cs : List Char} : cs.find? (255 < ·.toNat) = none ↔ ∀ c ∈ cs, c.toNat ≤ 255 := by
  simp only [List.find?_eq_none, decide_eq_true_eq, Nat.not_lt]

theorem latin1_of_le {cs : List Char} (h : ∀ c ∈ cs, c.toNat ≤ 255) :
    latin1 cs = .ok (cs.map fun c => UInt8.ofNat c.toNat) := by
  rw [latin1, find?_not_byte_eq_none_iff.2 h]

theorem latin1_error {cs : List Char} (h : ¬ ∀ c ∈ cs, c.toNat ≤ 255) : ∃ c, latin1 cs = .error c := by
  cases hf : cs.find? (255 < ·.toNat) with
  | some c => exact ⟨c, by rw [latin1, hf]⟩
  | none => exact absurd (find?_not_byte_eq_none_iff.1 hf) h

/-- The first character that is not a byte is named. -/
theorem latin1_append_cons {before after : List Char} {c : Char} (hb : ∀ d ∈ before, d.toNat ≤ 255)
    (hc : 255 < c.toNat) :
    latin1 (before ++ c :: after) = .error c := by
  have found : (c :: after).find? (255 < ·.toNat) = some c := List.find?_cons_of_pos (decide_eq_true hc)
  rw [latin1, List.find?_append, find?_not_byte_eq_none_iff.2 hb, Option.none_or, found]

theorem jumpOver?_of_le {n : Nat} (h : n ≤ 65535) : jumpOver? n = some (jumpOver n) := by
  unfold jumpOver? jumpOver
  rw [if_pos h]
  split <;> rfl

namespace Gen

/-- No slot is looked up, so the frame does not matter. -/
theorem emits_loadString (segment : s.image.capacity ≤ segmentSize) (frame : Frame) (dst : Reg) (text : String) :
    Emits (loadString dst text) s ((Leaf.str text).WellFormed frame) ()
      ((Leaf.str text).code s.link frame dst s.image.size) s.frames := by
  have len : (charBytes text ++ [DosFunction.sentinel]).length = text.length + 1 := by simp
  unfold loadString
  by_cases hc : ∀ c ∈ text.toList, c.toNat ≤ 255
  · rw [latin1_of_le hc, ← charBytes]
    dsimp only
    rw [len]
    by_cases hn : text.length + 1 ≤ 65535
    · rw [jumpOver?_of_le hn]
      refine Emits.of ((Emits.instr s _).seq fun _ h1 => Emits.after (Gives.address _)
        (Emits.after (Gives.report _ _) ((Emits.bytes _ _).seq fun _ _ => Emits.instr _ _))) ?_ ?_
      · simpa [Leaf.WellFormed] using hc
      · simp only [Leaf.code, Generator.extend_link, Generator.size_extend, List.append_assoc, Instr.size]
    -- A string that no jump reaches over does not fit the segment either.
    · have hj : jumpOver? (text.length + 1) = none := by
        rw [jumpOver?, if_neg (by omega), if_neg hn]
      rw [hj]
      have large : ¬ s.Fits (((Leaf.str text).code s.link frame dst s.image.size).length) := by
        simp only [Generator.Fits, Leaf.length_code, Leaf.size, Instr.size_movImm, segmentSize] at segment ⊢
        omega
      exact Gives.after (Gives.position s)
        (Gives.read fun _ => (Gives.reject s _ () _).iff (iff_of_false id fun hl => large hl.2))
  · obtain ⟨c, hc'⟩ := latin1_error hc
    rw [hc']
    exact (Emits.reject _).iff (by simpa [Leaf.WellFormed] using hc)

theorem emits_load (h : Ready s frame rest) (dst : Reg) (leaf : Leaf) :
    Emits (load dst leaf) s (leaf.WellFormed frame) () (leaf.code s.link frame dst s.image.size) s.frames := by
  cases leaf with
  | var name =>
    refine Emits.after (Gives.frame h.frames) ?_
    by_cases hc : frame.contains name
    · exact (Emits.after (Gives.attempt (Frame.displacement_eq h.sound hc)) (Emits.instr s _)).iff
        (iff_of_true trivial hc)
    · exact (Emits.refused (a := 0) (t := s) (Gives.attempt_error (Frame.displacement_error hc))).iff
        (iff_of_false id hc)
  | int value =>
    rw [load, immediate?]
    by_cases hv : -32768 ≤ value ∧ value ≤ 65535
    · rw [if_pos hv]
      exact (Emits.instr s _).iff (iff_of_true trivial hv)
    · rw [if_neg hv]
      exact (Emits.reject _).iff (iff_of_false id hv)
  | str text => exact emits_loadString h.segment frame dst text

/-! ## Operators and calls -/

theorem supported_iff (op : BinaryOp) : op.Supported ↔ op.code?.isSome := by
  cases op <;> decide

theorem emits_apply (h : Ready s frame rest) (op : BinaryOp) :
    Emits (apply op) s op.Supported () (encodeAll op.instrs) s.frames := by
  unfold apply BinaryOp.instrs
  rw [supported_iff]
  cases op.code? with
  | some code => exact (Emits.instrs code h.room).iff (iff_of_true trivial rfl)
  | none => exact Emits.after (Gives.frame h.frames) ((Emits.reject _).iff (iff_of_false id Bool.false_ne_true))

theorem address?_isSome_iff {table : FunctionTable} {name : String} :
    (∃ a, table.address? name = some a) ↔ name ∈ table.entries.map Prod.fst := by
  rw [FunctionTable.address?, ← Option.isSome_iff_exists, List.lookup_isSome_iff, List.mem_map]
  constructor
  · rintro ⟨x, hx, e⟩
    exact ⟨x, hx, (eq_of_beq e).symm⟩
  · rintro ⟨x, hx, rfl⟩
    exact ⟨x, hx, beq_self_eq_true _⟩

theorem gives_callee (h : Ready s frame rest) (name : String) :
    Gives (callee name) s (name ∈ s.known) (s.link.entry name) s := by
  refine Gives.after (Gives.frame h.frames) (Gives.read fun events => ?_)
  by_cases hk : name ∈ s.known
  · obtain ⟨a, ha⟩ := address?_isSome_iff.2 hk
    have : s.link.entry name = a := by rw [Link.entry, Generator.link, ha, Option.getD_some]
    rw [this]
    simp only [ha]
    exact (Gives.pure s a).iff (iff_of_true trivial hk)
  · have ha : s.functions.address? name = none := by
      cases ha : s.functions.address? name with
      | none => rfl
      | some a => exact absurd (address?_isSome_iff.1 ⟨a, ha⟩) hk
    simp only [ha]
    exact (Gives.reject s s _ _).iff (iff_of_false id hk)

end Gen

/-! ## Expressions -/

open Gen

theorem Expr.code_call {link : Link} {frame : Frame} {pos : Nat} {name : String} {args : List Expr} (h : name ≠ puts) :
    (Expr.call name args).code link frame pos =
      argsCode link frame pos args ++ (Instr.movImm .ax (link.entry name)).encode ++
        (Instr.callReg .ax).encode ++ (Instr.addImm .sp (argBytes args.length)).encode := by
  rw [Expr.code.eq_def]
  exact if_neg h

theorem Expr.emits_puts {message : Expr} {ok : Prop} {bytes : List UInt8}
    (h : Emits message.lower s ok () bytes s.frames) :
    Emits (Expr.call puts [message]).lower s ok ()
      (bytes ++ (Instr.movReg .dx .ax).encode ++ (Instr.dosCall .printString).encode) s.frames :=
  Emits.of (h.seq fun _ _ => (Emits.instr _ _).seq fun _ _ => Emits.instr _ _) (by simp) (List.append_assoc ..).symm

/-- What brings the right operand of an operator into `bx`. -/
def Expr.lowerRight (e : Expr) : Gen Unit :=
  match e.leaf? with
  | some leaf => load .bx leaf
  | none => do
    emit (.push .ax)
    e.lower
    emit (.movReg .bx .ax)
    emit (.pop .ax)

theorem lowerTail_cons (op : BinaryOp) (ops : List BinaryOp) (e : Expr) (es : List Expr) :
    lowerTail (op :: ops) (e :: es) = (do e.lowerRight; apply op; lowerTail ops es) := by
  rw [lowerTail, Expr.lowerRight]
  cases e.leaf? with
  | some leaf => rfl
  | none => simp only [bind_assoc]

theorem Expr.wellFormed_of_leaf {e : Expr} {leaf : Leaf} (h : e.leaf? = some leaf) (frame : Frame)
    (known : List String) :
    e.WellFormed frame known ↔ leaf.WellFormed frame := by
  cases e <;> simp only [Expr.leaf?, Option.some.injEq, reduceCtorEq] at h <;> subst h <;> rfl

theorem Expr.emits_right {s : Generator} {frame : Frame} {rest : Frames} (e : Expr) (h : Ready s frame rest)
    (he : ∀ s, Ready s frame rest →
      Emits e.lower s (e.WellFormed frame s.known) () (e.code s.link frame s.image.size) s.frames) :
    Emits e.lowerRight s (e.WellFormed frame s.known) () (e.rightCode s.link frame s.image.size) s.frames := by
  unfold Expr.lowerRight Expr.rightCode
  cases hleaf : e.leaf? with
  | some leaf => exact (emits_load h .bx leaf).iff (Expr.wellFormed_of_leaf hleaf ..).symm
  | none =>
    refine Emits.of ((Emits.instr s _).seq fun _ h1 => (he _ (h.extend h1)).seq fun _ _ =>
      (Emits.instr _ _).seq fun _ _ => Emits.instr _ _) ?_ ?_
    · simp
    · simp only [Generator.extend_link, Generator.size_extend, List.append_assoc]
      rfl

mutual

/-- Lowering an expression appends its code if it is well formed. -/
theorem Expr.emits (e : Expr) {s : Generator} {frame : Frame} {rest : Frames} (h : Ready s frame rest) :
    Emits e.lower s (e.WellFormed frame s.known) () (e.code s.link frame s.image.size) s.frames := by
  match e with
  | .ident name => exact emits_load h .ax (.var name)
  | .int value => exact emits_load h .ax (.int value)
  | .str text => exact emits_load h .ax (.str text)
  | .call name args =>
    by_cases hn : name = puts
    · subst hn
      match args with
      | [message] =>
        refine Emits.of (Expr.emits_puts (message.emits h)) ?_ ?_
        · simp [Expr.WellFormed, allWellFormed]
        · simp only [Expr.code, if_true]
      | [] => exact (Emits.reject _).iff (iff_of_false id fun hw => by simp [Expr.WellFormed] at hw)
      | _ :: _ :: _ => exact (Emits.reject _).iff (iff_of_false id fun hw => by simp [Expr.WellFormed] at hw)
    · rw [Expr.lower.eq_def, Expr.code_call hn, Expr.WellFormed]
      simp only [if_neg hn]
      refine Gives.iff (Gives.bind (Q := allWellFormed frame s.known args ∧ s.Fits _) (gives_callee h name) fun _ => ?_)
        and_assoc.symm
      refine Emits.of ((emits_args args h).seq fun _ _ => (Emits.instr _ _).seq fun _ _ =>
        (Emits.instr _ _).seq fun _ _ => Emits.instr _ _) ?_ ?_
      · simp
      · simp only [List.append_assoc]
        rfl
  | .assign target value =>
    rw [Expr.lower, Expr.WellFormed, Expr.code]
    refine Emits.after (Gives.frame h.frames) ?_
    by_cases hc : frame.contains target
    · refine Emits.iff (Emits.after (Gives.attempt (Frame.displacement_eq h.sound hc))
        ((value.emits h).seq fun _ _ => Emits.instr _ _)) ?_
      simp [hc]
    · exact (Emits.refused (a := 0) (t := s) (Gives.attempt_error (Frame.displacement_error hc))).iff
        (iff_of_false id fun h => hc h.1)
  | .chain operands operators =>
    rw [Expr.lower.eq_def]
    refine Emits.after (Gives.frame h.frames) ?_
    by_cases hl : operands.length = operators.length + 1
    · simp only [hl, ne_eq, not_true, if_false]
      match operands with
      | first :: others =>
        refine Emits.of ((first.emits h).seq
          fun _ h1 => emits_tail operators others (h.extend h1) (by simpa using hl)) ?_ ?_
        · simp only [Expr.WellFormed, allWellFormed, Generator.extend_known, hl, true_and]
          exact and_left_comm
        · simp only [Expr.code, Generator.extend_link, Generator.size_extend, Expr.length_code]
    · simp only [ne_eq, hl, not_false_iff, if_true]
      exact (Emits.refused (a := ()) (t := s) (Gives.reject _ _ _ _)).iff (iff_of_false id fun hw => hl hw.1)

theorem emits_args (args : List Expr) {s : Generator} {frame : Frame} {rest : Frames} (h : Ready s frame rest) :
    Emits (lowerArgs args) s (allWellFormed frame s.known args) ()
      (argsCode s.link frame s.image.size args) s.frames := by
  match args with
  | [] => exact Emits.pure () h.room
  | arg :: args =>
    rw [lowerArgs]
    refine Emits.of ((emits_args args h).seq fun _ h1 => (arg.emits (h.extend h1)).seq fun _ _ => Emits.instr _ _) ?_ ?_
    · simp [allWellFormed, and_comm]
    · simp only [argsCode, Generator.extend_link, Generator.size_extend, length_argsCode, List.append_assoc]

theorem emits_tail (ops : List BinaryOp) (operands : List Expr) {s : Generator} {frame : Frame} {rest : Frames}
    (h : Ready s frame rest) (hl : operands.length = ops.length) :
    Emits (lowerTail ops operands) s ((∀ op ∈ ops, op.Supported) ∧ allWellFormed frame s.known operands) ()
      (tailCode s.link frame s.image.size ops operands) s.frames := by
  match ops, operands with
  | [], [] => exact (Emits.pure () h.room).iff (by simp [allWellFormed])
  | op :: ops, operand :: operands =>
    have right := operand.emits_right h fun s h => operand.emits h
    rw [lowerTail_cons]
    refine Emits.of (right.seq fun _ h1 => (emits_apply (h.extend h1) op).seq fun _ h2 =>
      emits_tail ops operands ((h.extend h1).extend h2) (by simpa using hl)) ?_ ?_
    · simp only [Generator.extend_known, List.forall_mem_cons, allWellFormed]
      exact ⟨fun ⟨h1, h2, h3, h4⟩ => ⟨⟨h2, h3⟩, h1, h4⟩, fun ⟨⟨h2, h3⟩, h1, h4⟩ => ⟨h1, h2, h3, h4⟩⟩
    · simp only [tailCode_cons, Generator.extend_link, Generator.size_extend, Expr.length_rightCode, List.append_assoc]

end

end DotCom
