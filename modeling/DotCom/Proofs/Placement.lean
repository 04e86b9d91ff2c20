/-
  DotCom.Proofs.Placement — what stands where in an image. A placement is an image with the
  address of its first byte and the offsets of its functions; `At` says of each kind of tree that
  its code stands between two offsets, with every jump landing on what it is meant for and every
  address being that of the item it names. Addresses are compared as numbers, so none has wrapped.

  - `argsAt_le`: the code of an argument takes four bytes or more.
  - `Program.image_placed`: the image of a program is the stub and then its functions in order,
    and nothing in it is left open.
-/

import DotCom.Proofs.Lowering.Programs

namespace DotCom

structure Placement where
  image : List UInt8
  /-- The address of the first byte. -/
  base : UInt16
  /-- Each function and the offset of its first byte. -/
  starts : List (String × Nat)

namespace Placement

/-- The image holds `bytes` at an offset. -/
def Holds (P : Placement) (i : Nat) (bytes : List UInt8) : Prop :=
  ∃ before after, P.image = before ++ bytes ++ after ∧ before.length = i

/-- The image holds instructions from `i` up to `j`. -/
def Block (P : Placement) (i : Nat) (is : List Instr) (j : Nat) : Prop :=
  P.Holds i (encodeAll is) ∧ j = i + (encodeAll is).length

/-- A word is the address of an offset. -/
def Addresses (P : Placement) (address : UInt16) (pos : Nat) : Prop := address.toNat = P.base.toNat + pos

/-- A word is the address of the first byte of a function. -/
def Calls (P : Placement) (address : UInt16) (name : String) : Prop :=
  ∃ start, (name, start) ∈ P.starts ∧ P.Addresses address start

end Placement

/-- A jump with the offset `next` behind it that always lands on `target`. -/
def Instr.Lands (next target : Nat) : Instr → Prop
  | .jmpShort rel => (target : Int) = next + rel.toInt
  | .jmpNear rel => target = next + rel.toNat
  | _ => False

/-! ## Expressions -/

/-- The literal of a string stands behind a jump that lands behind its sentinel, on the load of
    its address. -/
def Leaf.At (P : Placement) (frame : Frame) (dst : Reg) (i : Nat) (leaf : Leaf) (j : Nat) : Prop :=
  match leaf with
  | .var name => P.Block i [.loadFrame dst (frame.disp name)] j
  | .int value => P.Block i [.movImm dst (UInt16.ofInt value)] j
  | .str text => ∃ jump k l address,
      P.Block i [jump] k ∧ P.Holds k (charBytes text ++ [DosFunction.sentinel]) ∧ l = k + text.length + 1 ∧
        jump.Lands k l ∧ P.Block l [.movImm dst address] j ∧ P.Addresses address k

mutual

def Expr.At (P : Placement) (frame : Frame) (i : Nat) : Expr → Nat → Prop
  | .ident name, j => (Leaf.var name).At P frame .ax i j
  | .int value, j => (Leaf.int value).At P frame .ax i j
  | .str text, j => (Leaf.str text).At P frame .ax i j
  | .call name args, j =>
    if name = puts then
      match args with
      | [message] => ∃ k, message.At P frame i k ∧ P.Block k [.movReg .dx .ax, .dosCall .printString] j
      | _ => False
    else
      ∃ k address, argsAt P frame i args k ∧
        P.Block k [.movImm .ax address, .callReg .ax, .addImm .sp (argBytes args.length)] j ∧ P.Calls address name
  | .assign target value, j => ∃ k, value.At P frame i k ∧ P.Block k [.storeFrame .ax (frame.disp target)] j
  | .chain operands operators, j =>
    match operands with
    | [] => False
    | first :: rest => ∃ k, first.At P frame i k ∧ tailAt P frame k operators rest j

/-- The last argument stands first. -/
def argsAt (P : Placement) (frame : Frame) (i : Nat) : List Expr → Nat → Prop
  | [], j => i = j
  | arg :: args, j => ∃ k l, argsAt P frame i args k ∧ arg.At P frame k l ∧ P.Block l [.push .ax] j

def tailAt (P : Placement) (frame : Frame) (i : Nat) : List BinaryOp → List Expr → Nat → Prop
  | op :: ops, operand :: operands, j => ∃ k l,
      (match operand.leaf? with
        | some leaf => leaf.At P frame .bx i k
        | none => ∃ m n, P.Block i [.push .ax] m ∧ operand.At P frame m n ∧ P.Block n [.movReg .bx .ax, .pop .ax] k) ∧
      (op.Supported ∧ P.Block k op.instrs l) ∧ tailAt P frame l ops operands j
  | [], [], j => i = j
  | _, _, _ => False

end

/-- The code that brings the right operand of an operator into `bx`. -/
def Expr.RightAt (P : Placement) (frame : Frame) (i : Nat) (e : Expr) (j : Nat) : Prop :=
  match e.leaf? with
  | some leaf => leaf.At P frame .bx i j
  | none => ∃ m n, P.Block i [.push .ax] m ∧ e.At P frame m n ∧ P.Block n [.movReg .bx .ax, .pop .ax] j

/-! ## Statements -/

mutual

def Stmt.At (P : Placement) (frame : Frame) (i : Nat) : Stmt → Nat → Prop
  | .declare _ _, j => P.Block i [.subImm .sp 2] j
  | .expr e, j => e.At P frame i j
  | .ret e, j => ∃ k, e.At P frame i k ∧ P.Block k (epilogueInstrs frame) j
  | .cond chain, j => chain.At P frame i j j
  | .loop _ _, _ => False

/-- The branches of a chain that ends at `exit`. A guard that fails jumps to what stands behind the
    branch: the next guard, the last body, or the end of the chain. A body that is done jumps to the
    end of the chain. -/
def IfChain.At (P : Placement) (frame : Frame) (i exit : Nat) : IfChain → Nat → Prop
  | .branch guard body next, j => ∃ k l rel address,
      guard.At P frame i k ∧ P.Block k [.test .ax .ax, .jcc .equal rel] (k + 4) ∧ stmtsAt P frame (k + 4) body l ∧
        P.Block l [.movImm .ax address, .jmpReg .ax] (l + 5) ∧
        ((l + 5 : Int) = k + 4 + rel.toInt ∧ 5 ≤ rel.toInt ∧ rel.toInt ≤ 127) ∧ P.Addresses address exit ∧
        next.At P (frameAfter frame body) (l + 5) exit j
  | .otherwise body, j => stmtsAt P frame i body j
  | .done, j => i = j

def stmtsAt (P : Placement) (frame : Frame) (i : Nat) : List Stmt → Nat → Prop
  | [], j => i = j
  | st :: ss, j => ∃ k, st.At P frame i k ∧ stmtsAt P (st.frame frame) k ss j

end

/-! ## Functions and programs -/

/-- A function starts with `push bp` and ends with the epilogue that is reached without a return. -/
def Function.At (P : Placement) (i : Nat) (f : Function) (j : Nat) : Prop :=
  ∃ k, P.Block i [.push .bp, .movReg .bp .sp] (i + 3) ∧ stmtsAt P f.frame (i + 3) f.body k ∧
    P.Block k (epilogueInstrs (frameAfter f.frame f.body)) j

/-- Functions stand one behind the other, each at the offset listed for it. -/
def functionsAt (P : Placement) (i : Nat) : List Function → List (String × Nat) → Nat → Prop
  | [], [], j => i = j
  | f :: fs, (name, start) :: starts, j =>
    (name = f.name ∧ start = i) ∧ ∃ k, f.At P i k ∧ functionsAt P k fs starts j
  | _, _, _ => False

structure Program.At (P : Placement) (entryPoint : String) (p : Program) : Prop where
  segment : P.base.toNat + P.image.length ≤ segmentSize
  distinct : (p.functions.map Function.name).Nodup
  stub : ∃ address, P.Block 0 (DotCom.stub address) stubSize ∧ P.Calls address entryPoint
  functions : functionsAt P stubSize p.functions P.starts P.image.length

/-! ## Sizes -/

variable {P : Placement} {i j : Nat} {link : Link} {known : List String} {frame : Frame}

theorem Placement.Block.le {i j : Nat} {instr : Instr} {is : List Instr} (h : P.Block i (instr :: is) j) :
    i + instr.size ≤ j := by
  rw [h.2, encodeAll_cons, List.length_append, Instr.length_encode]
  omega

theorem Instr.three_le_loadFrame (dst : Reg) (disp : Int16) : 3 ≤ (Instr.loadFrame dst disp).size := by
  show 3 ≤ (Instr.frameOperand dst.code disp).length + 1
  unfold Instr.frameOperand
  split
  · exact Nat.le_refl 3
  · exact Nat.le_succ 3

theorem Leaf.At.three_le {frame : Frame} {dst : Reg} {leaf : Leaf} {i j : Nat} (h : leaf.At P frame dst i j) :
    i + 3 ≤ j := by
  cases leaf with
  | var name => exact Nat.le_trans (Nat.add_le_add_left (Instr.three_le_loadFrame ..) i) (Placement.Block.le h)
  | int value => exact Placement.Block.le h
  | str text =>
    obtain ⟨jump, k, l, address, hjump, -, rfl, -, hload, -⟩ := h
    have := hjump.le
    have : k + text.length + 1 + 3 ≤ j := hload.le
    omega

mutual

theorem Expr.At.three_le {frame : Frame} {e : Expr} {i j : Nat} (h : e.At P frame i j) : i + 3 ≤ j := by
  match e with
  | .ident _ | .int _ | .str _ => exact Leaf.At.three_le h
  | .call name args =>
    rw [Expr.At.eq_def] at h
    dsimp only at h
    split at h
    · match args with
      | [message] =>
        obtain ⟨k, hmessage, hb⟩ := h
        have := Expr.At.three_le hmessage
        have := hb.le
        omega
      | [] | _ :: _ :: _ => exact h.elim
    · obtain ⟨k, address, hargs, hb, -⟩ := h
      have := argsAt_le hargs
      have : k + 3 ≤ j := hb.le
      omega
  | .assign target value =>
    obtain ⟨k, hvalue, hb⟩ := h
    have := Expr.At.three_le hvalue
    have := hb.le
    omega
  | .chain operands operators =>
    match operands with
    | [] => exact h.elim
    | first :: rest =>
      obtain ⟨k, hfirst, hrest⟩ := h
      have := Expr.At.three_le hfirst
      have := tailAt_le hrest
      omega

/-- The code of an argument takes four bytes or more. -/
theorem argsAt_le {frame : Frame} {args : List Expr} {i j : Nat} (h : argsAt P frame i args j) :
    i + 4 * args.length ≤ j := by
  match args with
  | [] => exact Nat.le_of_eq h
  | arg :: args =>
    obtain ⟨k, l, hargs, harg, hb⟩ := h
    have := argsAt_le hargs
    have := Expr.At.three_le harg
    have : l + 1 ≤ j := hb.le
    rw [List.length_cons]
    omega

theorem tailAt_le {frame : Frame} {ops : List BinaryOp} {operands : List Expr} {i j : Nat}
    (h : tailAt P frame i ops operands j) : i ≤ j := by
  match ops, operands with
  | [], [] => exact Nat.le_of_eq h
  | [], _ :: _ | _ :: _, [] => exact h.elim
  | op :: ops, operand :: operands =>
    obtain ⟨k, l, hright, ⟨-, hop⟩, hrest⟩ := h
    have := tailAt_le hrest
    have := hop.2
    have : i ≤ k := by
      split at hright
      · have := Leaf.At.three_le hright
        omega
      · obtain ⟨m, n, hpush, hoperand, hmove⟩ := hright
        have := hpush.le
        have := Expr.At.three_le hoperand
        have := hmove.le
        omega
    omega

end

/-! ## From bytes to placements -/

namespace Placement

theorem Holds.append {bs cs : List UInt8} (h : P.Holds i (bs ++ cs)) : P.Holds i bs ∧ P.Holds (i + bs.length) cs := by
  obtain ⟨before, after, e, rfl⟩ := h
  refine ⟨⟨before, cs ++ after, ?_, rfl⟩, ⟨before ++ bs, after, ?_, List.length_append⟩⟩
  · rw [e, List.append_assoc, List.append_assoc, List.append_assoc]
  · rw [e, List.append_assoc, List.append_assoc, List.append_assoc, List.append_assoc]

theorem Holds.le {bs : List UInt8} (h : P.Holds i bs) : i + bs.length ≤ P.image.length := by
  obtain ⟨before, after, e, rfl⟩ := h
  rw [e, List.length_append, List.length_append]
  omega

theorem Holds.block {is : List Instr} (h : P.Holds i (encodeAll is)) (hj : i + (encodeAll is).length = j) :
    P.Block i is j :=
  ⟨h, hj.symm⟩

/-- One instruction. -/
theorem Holds.instr {instr : Instr} (h : P.Holds i instr.encode) (hj : i + instr.size = j) : P.Block i [instr] j := by
  refine Holds.block ?_ ?_
  · rwa [encodeAll_cons, encodeAll_nil, List.append_nil]
  · rwa [encodeAll_cons, encodeAll_nil, List.append_nil]

/-- What code is linked to stands in the image, as far as it can be called. -/
structure Links (P : Placement) (link : Link) (known : List String) : Prop where
  base : link.base = P.base
  calls : ∀ name ∈ known, P.Calls (link.entry name) name

theorem Links.addresses (h : P.Links link known) {pos : Nat} (hp : P.base.toNat + pos < 65536) :
    P.Addresses (link.addr pos) pos := by
  rw [Addresses, Link.addr, h.base, UInt16.toNat_add, UInt16.toNat_ofNat']
  omega

end Placement

open Placement

theorem lands_jumpOver {k n : Nat} (h : n ≤ 65535) : (jumpOver n).Lands k (k + n) := by
  unfold jumpOver
  split
  · rename_i hn
    show ((k + n : Nat) : Int) = k + (Int8.ofNat n).toInt
    rw [Int8.toInt_ofNat_of_lt (by omega)]
    omega
  · show k + n = k + (UInt16.ofNat n).toNat
    rw [UInt16.toNat_ofNat_of_lt' (show n < 65536 by omega)]

/-- The parts of a string's code: a jump, the bytes that it goes over, and the load of their address. -/
theorem Leaf.holds_str {dst : Reg} {text : String} {pos : Nat}
    (hh : P.Holds i ((Leaf.str text).code link frame dst pos)) :
    let jump := jumpOver (text.length + 1)
    let k := i + jump.size
    P.Block i [jump] k ∧ P.Holds k (charBytes text ++ [DosFunction.sentinel]) ∧
      P.Block (k + text.length + 1) [.movImm dst (link.addr (pos + jump.size))]
        (i + (Leaf.str text).size frame dst) := by
  intro jump k
  obtain ⟨hfront, hload⟩ := Holds.append hh
  obtain ⟨hjump, htext⟩ := Holds.append hfront
  have hend : i + (jump.encode ++ (charBytes text ++ [DosFunction.sentinel])).length = k + text.length + 1 := by
    simp only [k, List.length_append, length_charBytes, List.length_singleton, Instr.length_encode, Nat.add_assoc]
  rw [hend] at hload
  refine ⟨hjump.instr rfl, htext, hload.instr ?_⟩
  rw [Leaf.size, Instr.size_movImm]
  simp only [k, jump, Nat.add_assoc]
  rfl

theorem Leaf.at_of_holds (hl : P.Links link known) (dst : Reg) (leaf : Leaf) (hj : i + leaf.size frame dst = j)
    (hh : P.Holds i (leaf.code link frame dst i)) (hb : P.base.toNat + j < 65536) : leaf.At P frame dst i j := by
  subst hj
  cases leaf with
  | var name => exact hh.instr rfl
  | int value => exact hh.instr rfl
  | str text =>
    obtain ⟨hjump, htext, hload⟩ := Leaf.holds_str hh
    have := hload.le
    exact ⟨_, _, _, _, hjump, htext, rfl, lands_jumpOver (by omega), hload, hl.addresses (by omega)⟩

theorem Expr.rightAt_of (hl : P.Links link known) (e : Expr)
    (he : ∀ {m}, P.Holds m (e.code link frame m) → P.base.toNat + (m + e.size frame) < 65536 →
      e.At P frame m (m + e.size frame))
    (hh : P.Holds i (e.rightCode link frame i)) (hb : P.base.toNat + (i + e.rightSize frame) < 65536) :
    e.RightAt P frame i (i + e.rightSize frame) := by
  unfold Expr.rightCode at hh
  unfold Expr.rightSize at hb ⊢
  unfold Expr.RightAt
  cases hleaf : e.leaf? with
  | some leaf =>
    simp only [hleaf] at hh hb
    exact Leaf.at_of_holds hl .bx leaf rfl hh hb
  | none =>
    simp only [hleaf, List.append_assoc, Instr.size_push, Instr.size_movReg, Instr.size_pop] at hh hb
    obtain ⟨hpush, hrest⟩ := Holds.append hh
    obtain ⟨hoperand, hmove⟩ := Holds.append hrest
    rw [Expr.length_code] at hmove
    refine ⟨i + 1, _, hpush.instr rfl, he hoperand (by omega), Holds.block hmove ?_⟩
    show i + 1 + e.size frame + 3 = i + (1 + e.size frame + 2 + 1)
    omega

mutual

theorem Expr.at_of_holds (hl : P.Links link known) (e : Expr) {i j : Nat} (hw : e.WellFormed frame known)
    (hj : i + e.size frame = j) (hh : P.Holds i (e.code link frame i)) (hb : P.base.toNat + j < 65536) :
    e.At P frame i j := by
  match e with
  | .ident _ | .int _ | .str _ => exact Leaf.at_of_holds hl .ax _ hj hh hb
  | .call name args =>
    by_cases hn : name = puts
    · subst hn
      match args with
      | [message] =>
        have hh : P.Holds i (message.code link frame i ++ encodeAll [.movReg .dx .ax, .dosCall .printString]) := by
          simpa [Expr.code] using hh
        have hj : i + message.size frame + (encodeAll [.movReg .dx .ax, .dosCall .printString]).length = j := by
          simpa [Expr.size, Nat.add_assoc, Instr.length_encode] using hj
        obtain ⟨hmessage, hprint⟩ := Holds.append hh
        rw [Expr.length_code] at hprint
        exact ⟨_, message.at_of_holds hl hw.2.1 rfl hmessage (by omega), hprint.block hj⟩
      | [] | _ :: _ :: _ => exact absurd hw.1 (by simp)
    · rw [Expr.WellFormed, if_neg hn] at hw
      rw [Expr.code_call hn, List.append_assoc, List.append_assoc] at hh
      obtain ⟨hargs, hcall⟩ := Holds.append hh
      rw [length_argsCode] at hcall
      rw [Expr.size.eq_def] at hj
      simp only [if_neg hn] at hj
      rw [Expr.At.eq_def]
      simp only [if_neg hn]
      refine ⟨_, _, argsAt_of_holds hl args hw.2 rfl hargs (by omega), Holds.block (by simpa using hcall) ?_,
        hl.calls name hw.1⟩
      simp only [encodeAll_cons, encodeAll_nil, List.append_nil, List.length_append, Instr.length_encode,
        Instr.size_movImm, Instr.size_callReg] at hj ⊢
      omega
  | .assign target value =>
    obtain ⟨hvalue, hstore⟩ := Holds.append hh
    rw [Expr.length_code] at hstore
    rw [Expr.size, ← Nat.add_assoc] at hj
    exact ⟨_, value.at_of_holds hl hw.2 rfl hvalue (by omega), hstore.instr hj⟩
  | .chain operands operators =>
    match operands with
    | [] => exact absurd hw.1 (by simp)
    | first :: rest =>
      obtain ⟨hfirst, hrest⟩ := Holds.append hh
      rw [Expr.length_code] at hrest
      rw [Expr.size, ← Nat.add_assoc] at hj
      have hcount : rest.length = operators.length := Nat.succ.inj hw.1
      exact ⟨_, first.at_of_holds hl hw.2.2.1 rfl hfirst (by omega),
        tailAt_of_holds hl operators rest hcount hw.2.1 hw.2.2.2 hj hrest hb⟩

theorem argsAt_of_holds (hl : P.Links link known) (args : List Expr) {i j : Nat} (hw : allWellFormed frame known args)
    (hj : i + argsSize frame args = j) (hh : P.Holds i (argsCode link frame i args)) (hb : P.base.toNat + j < 65536) :
    argsAt P frame i args j := by
  match args with
  | [] => exact hj
  | arg :: args =>
    obtain ⟨hfront, hpush⟩ := Holds.append hh
    obtain ⟨hargs, harg⟩ := Holds.append hfront
    rw [length_argsCode] at harg
    rw [List.length_append, length_argsCode, Expr.length_code, ← Nat.add_assoc] at hpush
    rw [argsSize, ← Nat.add_assoc, ← Nat.add_assoc] at hj
    exact ⟨_, _, argsAt_of_holds hl args hw.2 rfl hargs (by omega), arg.at_of_holds hl hw.1 rfl harg (by omega),
      hpush.instr hj⟩

theorem tailAt_of_holds (hl : P.Links link known) (ops : List BinaryOp) (operands : List Expr) {i j : Nat}
    (hc : operands.length = ops.length) (ho : ∀ op ∈ ops, op.Supported) (hw : allWellFormed frame known operands)
    (hj : i + tailSize frame ops operands = j) (hh : P.Holds i (tailCode link frame i ops operands))
    (hb : P.base.toNat + j < 65536) : tailAt P frame i ops operands j := by
  match ops, operands with
  | [], [] => exact hj
  | [], _ :: _ | _ :: _, [] => exact nomatch hc
  | op :: ops, operand :: operands =>
    rw [tailCode_cons] at hh
    rw [tailSize_cons, ← Nat.add_assoc, ← Nat.add_assoc] at hj
    obtain ⟨hfront, hrest⟩ := Holds.append hh
    obtain ⟨hright, hop⟩ := Holds.append hfront
    rw [Expr.length_rightCode] at hop
    rw [List.length_append, Expr.length_rightCode, ← Nat.add_assoc] at hrest
    have right := operand.rightAt_of hl (fun hm hb => operand.at_of_holds hl hw.1 rfl hm hb) hright (by omega)
    exact ⟨_, _, right, ⟨ho op List.mem_cons_self, hop.block rfl⟩,
      tailAt_of_holds hl ops operands (Nat.succ.inj hc) (fun o h => ho o (List.mem_cons_of_mem _ h)) hw.2 hj hrest hb⟩

end

theorem length_epilogue_pos (frame : Frame) : 0 < (encodeAll (epilogueInstrs frame)).length := by
  rw [epilogueInstrs, encodeAll_cons, encodeAll_cons, List.length_append, List.length_append,
    Instr.length_encode (.pop .bp)]
  simp only [Instr.size_pop]
  omega

/-- The bytes of a branch around its guard and its body. -/
theorem branch_pieces {i : Nat} {address : UInt16} {guard : Expr} {body : List Stmt} {next : IfChain}
    (hh : P.Holds i ((IfChain.branch guard body next).code link frame i address)) :
    let k := i + guard.size frame
    let l := k + 4 + stmtsSize frame body
    P.Holds i (guard.code link frame i) ∧
      P.Holds k (encodeAll [.test .ax .ax, .jcc .equal (Int8.ofNat (bodySize frame body))]) ∧
      P.Holds (k + 4) (stmtsCode link frame (k + 4) body) ∧
      P.Holds l (encodeAll [.movImm .ax address, .jmpReg .ax]) ∧
      P.Holds (l + 5) (next.code link (frameAfter frame body) (l + 5) address) := by
  intro k l
  have pieces : (IfChain.branch guard body next).code link frame i address =
      guard.code link frame i ++ (encodeAll [.test .ax .ax, .jcc .equal (Int8.ofNat (bodySize frame body))] ++
        (stmtsCode link frame (k + 4) body ++ (encodeAll [.movImm .ax address, .jmpReg .ax] ++
          next.code link (frameAfter frame body) (k + 4 + bodySize frame body) address))) := by
    simp only [IfChain.code, encodeAll_cons, encodeAll_nil, List.append_nil, List.append_assoc, k]
  rw [pieces] at hh
  obtain ⟨hguard, hh⟩ := Holds.append hh
  rw [Expr.length_code] at hh
  obtain ⟨htest, hh⟩ := Holds.append hh
  obtain ⟨hbody, hh⟩ := Holds.append hh
  rw [length_stmtsCode] at hh
  obtain ⟨hexit, hnext⟩ := Holds.append hh
  exact ⟨hguard, htest, hbody, hexit, hnext⟩

mutual

theorem Stmt.at_of_holds (hl : P.Links link known) (st : Stmt) {frame : Frame} {i j : Nat}
    (hw : st.WellFormed frame known)
    (hj : i + st.size frame = j) (hh : P.Holds i (st.code link frame i)) (hb : P.base.toNat + j < 65536) :
    st.At P frame i j := by
  match st with
  | .declare _ _ => exact hh.instr hj
  | .expr e => exact e.at_of_holds hl hw hj hh hb
  | .ret e =>
    obtain ⟨hvalue, hend⟩ := Holds.append hh
    rw [Expr.length_code] at hend
    rw [Stmt.size, ← Nat.add_assoc] at hj
    exact ⟨_, e.at_of_holds hl hw rfl hvalue (by omega), hend.block hj⟩
  | .cond chain =>
    subst hj
    exact chain.at_of_holds hl hw rfl hh (hl.addresses hb) hb
  | .loop _ _ => exact hw.elim

theorem IfChain.at_of_holds (hl : P.Links link known) (chain : IfChain) {frame : Frame} {i j exit : Nat}
    {address : UInt16}
    (hw : chain.WellFormed frame known) (hj : i + chain.size frame = j)
    (hh : P.Holds i (chain.code link frame i address))
    (he : P.Addresses address exit) (hb : P.base.toNat + j < 65536) : chain.At P frame i exit j := by
  match chain with
  | .branch guard body next =>
    obtain ⟨hguard, htest, hbody, hexit, hnext⟩ := branch_pieces hh
    rw [IfChain.size] at hj
    simp only [Instr.size_test, Instr.size_jcc, Instr.size_movImm, Instr.size_jmpReg] at hj
    have hs : bodySize frame body = stmtsSize frame body + 5 := rfl
    have hr : (Int8.ofNat (bodySize frame body)).toInt = bodySize frame body :=
      Int8.toInt_ofNat_of_lt (Nat.lt_succ_of_le hw.2.2.1)
    have hs127 := hw.2.2.1
    exact ⟨_, _, _, address, guard.at_of_holds hl hw.1 rfl hguard (by omega), htest.block rfl,
      stmtsAt_of_holds hl body hw.2.1 rfl hbody (by omega), hexit.block rfl, ⟨by omega, by omega, by omega⟩, he,
      next.at_of_holds hl hw.2.2.2 (by omega) hnext he hb⟩
  | .otherwise body => exact stmtsAt_of_holds hl body hw hj hh hb
  | .done => exact hj

theorem stmtsAt_of_holds (hl : P.Links link known) (ss : List Stmt) {frame : Frame} {i j : Nat}
    (hw : stmtsWellFormed frame known ss) (hj : i + stmtsSize frame ss = j)
    (hh : P.Holds i (stmtsCode link frame i ss)) (hb : P.base.toNat + j < 65536) : stmtsAt P frame i ss j := by
  match ss with
  | [] => exact hj
  | st :: ss =>
    obtain ⟨hst, hss⟩ := Holds.append hh
    rw [Stmt.length_code] at hss
    rw [stmtsSize, ← Nat.add_assoc] at hj
    exact ⟨_, st.at_of_holds hl hw.1 rfl hst (by omega), stmtsAt_of_holds hl ss hw.2 hj hss hb⟩

end

theorem Function.at_of_holds (f : Function) {i j : Nat} (hl : P.Links link known) (hw : f.WellFormed known)
    (hj : i + f.size = j) (hh : P.Holds i (f.code link i)) (hb : P.base.toNat + j ≤ 65536) : f.At P i j := by
  obtain ⟨hfront, hend⟩ := Holds.append hh
  obtain ⟨hstart, hbody⟩ := Holds.append hfront
  have three : ((Instr.push .bp).encode ++ (Instr.movReg .bp .sp).encode).length = 3 := rfl
  have hlength : f.size = 3 + stmtsSize f.frame f.body +
      (encodeAll (epilogueInstrs (frameAfter f.frame f.body))).length := rfl
  have hpos := length_epilogue_pos (frameAfter f.frame f.body)
  rw [List.length_append, length_stmtsCode, three, ← Nat.add_assoc] at hend
  exact ⟨_, hstart.block rfl, stmtsAt_of_holds hl f.body hw.body rfl hbody (by omega), hend.block (by omega)⟩

/-- Where functions that stand one behind the other start. -/
def startsFrom (i : Nat) : List Function → List (String × Nat)
  | [] => []
  | f :: fs => (f.name, i) :: startsFrom (i + f.size) fs

theorem exists_start {fs : List Function} {name : String} (h : name ∈ fs.map Function.name) (i : Nat) :
    ∃ start, (name, start) ∈ startsFrom i fs := by
  induction fs generalizing i with
  | nil => exact absurd h List.not_mem_nil
  | cons f fs ih =>
    rcases List.mem_cons.1 h with rfl | h
    · exact ⟨i, List.mem_cons_self⟩
    · obtain ⟨start, hs⟩ := ih h (i + f.size)
      exact ⟨start, List.mem_cons_of_mem _ hs⟩

theorem start_le {fs : List Function} {name : String} {start i : Nat} (h : (name, start) ∈ startsFrom i fs) :
    start < i + functionsSize fs := by
  induction fs generalizing i with
  | nil => exact absurd h List.not_mem_nil
  | cons f fs ih =>
    have positive : 3 ≤ f.size := Nat.le_trans (Nat.le_add_right 3 _) (Nat.le_add_right _ _)
    rw [functionsSize]
    rcases List.mem_cons.1 h with h | h
    · cases h
      omega
    · have := ih h
      omega

/-- The table of a program tells the starts of its functions. -/
theorem address?_of_start (base : UInt16) {fs : List Function} {table : FunctionTable} {name : String} {start i : Nat}
    (hd : (fs.map Function.name).Nodup) (h : (name, start) ∈ startsFrom i fs) :
    (tableAfter base table i fs).address? name = some (base + UInt16.ofNat start) := by
  induction fs generalizing table i with
  | nil => exact absurd h List.not_mem_nil
  | cons f fs ih =>
    obtain ⟨hf, hd⟩ := List.nodup_cons.1 hd
    rcases List.mem_cons.1 h with h | h
    · cases h
      rw [tableAfter, address?_tableAfter _ _ _ _ hf, FunctionTable.address?, List.lookup_cons, beq_self_eq_true]
    · rw [tableAfter, ih hd h]

theorem Placement.Links.mono {less : List String} (h : P.Links link known) (hs : ∀ name ∈ less, name ∈ known) :
    P.Links link less :=
  ⟨h.base, fun name hn => h.calls name (hs name hn)⟩

theorem functionsAt_of_holds {all : List String} (hl : P.Links link all) (fs : List Function)
    {known : List String} {i j : Nat}
    (hw : functionsWellFormed known fs) (hk : ∀ name ∈ known, name ∈ all)
    (hf : ∀ name ∈ fs.map Function.name, name ∈ all)
    (hj : i + functionsSize fs = j) (hh : P.Holds i (functionsCode link i fs)) (hb : P.base.toNat + j ≤ 65536) :
    functionsAt P i fs (startsFrom i fs) j := by
  induction fs generalizing known i with
  | nil => exact hj
  | cons f fs ih =>
    obtain ⟨hhead, hrest⟩ := Holds.append hh
    rw [Function.length_code] at hrest
    rw [functionsSize, ← Nat.add_assoc] at hj
    have known' : ∀ name ∈ f.name :: known, name ∈ all := fun name hn => by
      rcases List.mem_cons.1 hn with rfl | hn
      · exact hf _ List.mem_cons_self
      · exact hk name hn
    exact ⟨⟨rfl, rfl⟩, _, f.at_of_holds (hl.mono known') hw.1.2 rfl hhead (by omega),
      ih hw.2 known' (fun name hn => hf name (List.mem_cons_of_mem _ hn)) hj hrest⟩

namespace Program

/-- Where the functions of a program are placed. -/
def placement (p : Program) (base : UInt16) (image : List UInt8) : Placement :=
  ⟨image, base, startsFrom stubSize p.functions⟩

theorem links_placement {p : Program} {base : UInt16} (image : List UInt8) (hd : (p.functions.map Function.name).Nodup)
    (hb : base.toNat + p.size ≤ 65536) :
    (p.placement base image).Links (p.link base) (p.functions.map Function.name) := by
  refine ⟨rfl, fun name hn => ?_⟩
  obtain ⟨start, hs⟩ := exists_start hn stubSize
  refine ⟨start, hs, ?_⟩
  have hlt := start_le hs
  rw [Link.entry, link, address?_of_start base hd hs, Option.getD_some, Addresses, UInt16.toNat_add,
    UInt16.toNat_ofNat']
  show _ = base.toNat + start
  rw [size] at hb
  omega

/-- The image that compilation answers holds the stub and the code of the functions, linked to itself. -/
theorem holds_of_compile {p : Program} {options : Options} {image : Array UInt8} (h : p.compile options = .ok image) :
    let P := p.placement options.loadBase image.toList
    let link := p.link options.loadBase
    P.Links link (p.functions.map Function.name) ∧ P.Holds 0 (encodeAll (stub (link.entry options.entryPoint))) ∧
      P.Holds stubSize (functionsCode link stubSize p.functions) := by
  intro P link
  have layout := layout_of_compile h
  obtain ⟨hw, hr, himage⟩ := of_compile h
  have hh : P.Holds 0 (p.code options.loadBase options.entryPoint) :=
    ⟨[], [], by rw [List.nil_append, List.append_nil, ← himage]; rfl, rfl⟩
  obtain ⟨hstub, hfunctions⟩ := Holds.append hh
  rw [length_encodeAll_stub, Nat.zero_add] at hfunctions
  exact ⟨links_placement _ hw.distinct (Nat.le_trans (Nat.add_le_add_left hr _) layout), hstub, hfunctions⟩

/-- What compilation answers is a placed program. -/
theorem at_of_compile {p : Program} {options : Options} {image : Array UInt8} (h : p.compile options = .ok image) :
    p.At (p.placement options.loadBase image.toList) options.entryPoint := by
  have layout := layout_of_compile h
  obtain ⟨hw, hr, himage⟩ := of_compile h
  obtain ⟨hl, hstub, hfunctions⟩ := holds_of_compile h
  have hsize : image.toList.length = p.size := by rw [himage, length_code]
  have hend : options.loadBase.toNat + image.toList.length ≤ 65536 := by
    rw [hsize]
    exact Nat.le_trans (Nat.add_le_add_left hr _) layout
  refine ⟨hend, hw.distinct, ⟨_, hstub.block rfl, hl.calls _ hw.entry⟩, ?_⟩
  exact functionsAt_of_holds hl p.functions ((wellFormed_iff p _).1 hw).1 (fun _ hn => absurd hn List.not_mem_nil)
    (fun _ hn => hn) hsize.symm hfunctions hend

/-- An image is the stub and then the functions in order, every jump and address in it resolved. -/
theorem image_placed (p : Program) (options : Options) (image : Array UInt8) (h : p.compile options = .ok image) :
    ∃ starts, p.At ⟨image.toList, options.loadBase, starts⟩ options.entryPoint :=
  ⟨_, at_of_compile h⟩

/-- The sample, up to the last byte of the segment. -/
theorem sample_image_placed :
    let options : Options := { loadBase := UInt16.ofNat (segmentSize - sample.size), capacity := sample.size }
    ∃ image, sample.compile options = .ok image ∧ options.loadBase.toNat + image.size = segmentSize ∧
      ∃ starts, sample.At ⟨image.toList, options.loadBase, starts⟩ "main" := by
  intro options
  have h : sample.compile options = .ok (sample.code options.loadBase "main").toArray :=
    compile_eq_code (by decide +kernel) (by decide +kernel) (by decide +kernel)
  refine ⟨_, h, ?_, image_placed sample options _ h⟩
  rw [List.size_toArray, length_code]
  decide +kernel

end Program

end DotCom
