/-
  DotCom.Proofs.Simulation.Fragments — the code of one expression without calls, in whatever state it is
  run. There need be no program around it: its bytes stand in memory, the slots of the frame lie
  between `sp` and `bp`, and neither they nor the words that the code pushes overlap it. Variables
  hold words, and a string is worth the address of its bytes, which depends on where the code starts.

  - `Expr.evalAt`: the value of an expression and the variables after it, with no result where a
    division has none.
  - `Expr.delivers`: the code comes to its end with that value and those variables, or to that division.
    Memory changes in the slots assigned and in `scratch` bytes below `sp` at most.
  - `Expr.lower_delivers`: what lowering appends is such code.
-/

import DotCom.Proofs.Simulation.Expressions

namespace DotCom

/-! ## Values -/

/-- What each variable holds. -/
abbrev Env := String → UInt16

def Env.set (env : Env) (name : String) (v : UInt16) : Env := fun other => if other = name then v else env other

/-- The address of a string whose code starts at `start`: its bytes stand behind a jump. -/
def literalAddr (start : UInt16) (text : String) : UInt16 := start + UInt16.ofNat (jumpOver (text.length + 1)).size

/-- What a leaf is worth. -/
def Leaf.wordAt (start : UInt16) (env : Env) : Leaf → UInt16
  | .var name => env name
  | .int value => UInt16.ofInt value
  | .str text => literalAddr start text

/-- Where a right operand starts itself: one that is not a leaf has a `push` before it. -/
def Expr.operandStart (start : UInt16) (e : Expr) : UInt16 :=
  match e.leaf? with
  | some _ => start
  | none => start + 1

mutual

/-- The value of an expression without calls whose code starts at `start`, and the variables after it.
    Operands are evaluated from left to right. -/
def Expr.evalAt (frame : Frame) (start : UInt16) (env : Env) : Expr → Option (UInt16 × Env)
  | .ident name => some ((Leaf.var name).wordAt start env, env)
  | .int value => some ((Leaf.int value).wordAt start env, env)
  | .str text => some ((Leaf.str text).wordAt start env, env)
  | .call _ _ => none
  | .assign target value => do
    let (v, env) ← value.evalAt frame start env
    return (v, env.set target v)
  | .chain operands operators =>
    match operands with
    | [] => none
    | first :: rest => do
      let (v, env) ← first.evalAt frame start env
      evalTailAt frame (start + UInt16.ofNat (first.size frame)) v env operators rest

/-- The operators of a chain in turn, the value so far on the left of each. -/
def evalTailAt (frame : Frame) (start v : UInt16) (env : Env) : List BinaryOp → List Expr → Option (UInt16 × Env)
  | op :: ops, operand :: operands => do
    let (w, env) ← operand.evalAt frame (operand.operandStart start) env
    let v ← op.onWords v w
    evalTailAt frame (start + UInt16.ofNat (operand.rightSize frame + (encodeAll op.instrs).length)) v env ops operands
  | [], [] => some (v, env)
  | _, _ => none

end

theorem Expr.evalAt_of_leaf {e : Expr} {leaf : Leaf} (h : e.leaf? = some leaf) (frame : Frame) (start : UInt16)
    (env : Env) :
    e.evalAt frame start env = some (leaf.wordAt start env, env) := by
  cases e with
  | ident _ | int _ | str _ =>
    cases h
    rfl
  | call _ _ | assign _ _ | chain _ _ => cases h

/-! ## What the code needs -/

mutual

def Expr.callFree : Expr → Bool
  | .ident _ | .int _ | .str _ => true
  | .call _ _ => false
  | .assign _ value => value.callFree
  | .chain operands _ => allCallFree operands

def allCallFree : List Expr → Bool
  | [] => true
  | e :: es => e.callFree && allCallFree es

end

mutual

/-- The variables that an expression without calls assigns. -/
def Expr.assigned : Expr → List String
  | .ident _ | .int _ | .str _ | .call _ _ => []
  | .assign target value => target :: value.assigned
  | .chain operands _ => allAssigned operands

def allAssigned : List Expr → List String
  | [] => []
  | e :: es => e.assigned ++ allAssigned es

end

mutual

/-- The bytes below `sp` that an expression without calls uses: a word for each left operand that
    waits. -/
def Expr.scratch : Expr → Nat
  | .ident _ | .int _ | .str _ | .call _ _ => 0
  | .assign _ value => value.scratch
  | .chain operands _ =>
    match operands with
    | [] => 0
    | first :: rest => max first.scratch (tailScratch rest)

def tailScratch : List Expr → Nat
  | [] => 0
  | e :: es =>
    max (match e.leaf? with
      | some _ => 0
      | none => e.scratch + 2) (tailScratch es)

end

/-- The bytes below `sp` that a right operand uses. -/
def Expr.rightScratch (e : Expr) : Nat :=
  match e.leaf? with
  | some _ => 0
  | none => e.scratch + 2

theorem tailScratch_cons (e : Expr) (es : List Expr) : tailScratch (e :: es) = max e.rightScratch (tailScratch es) := by
  rw [tailScratch, Expr.rightScratch]

def Leaf.literals (start : UInt16) : Leaf → List (UInt16 × String)
  | .var _ | .int _ => []
  | .str text => [(literalAddr start text, text)]

mutual

/-- The strings of an expression without calls whose code starts at `start`, and their addresses. -/
def Expr.literals (frame : Frame) (start : UInt16) : Expr → List (UInt16 × String)
  | .ident name => (Leaf.var name).literals start
  | .int value => (Leaf.int value).literals start
  | .str text => (Leaf.str text).literals start
  | .call _ _ => []
  | .assign _ value => value.literals frame start
  | .chain operands operators =>
    match operands with
    | [] => []
    | first :: rest =>
      first.literals frame start ++ tailLiterals frame (start + UInt16.ofNat (first.size frame)) operators rest

def tailLiterals (frame : Frame) (start : UInt16) : List BinaryOp → List Expr → List (UInt16 × String)
  | op :: ops, operand :: operands =>
    operand.literals frame (operand.operandStart start) ++
      tailLiterals frame (start + UInt16.ofNat (operand.rightSize frame + (encodeAll op.instrs).length)) ops operands
  | _, _ => []

end

theorem Expr.literals_of_leaf {e : Expr} {leaf : Leaf} (h : e.leaf? = some leaf) (frame : Frame) (start : UInt16) :
    e.literals frame start = leaf.literals start := by
  cases e with
  | ident _ | int _ | str _ =>
    cases h
    rfl
  | call _ _ | assign _ _ | chain _ _ => cases h

/-! ## States -/

/-- An address outside the slots of some variables. -/
def Frame.Outside (frame : Frame) (names : List String) (bp a : UInt16) : Prop :=
  ∀ name ∈ names, ∀ offset, frame.offset? name = some offset → bp - offset ≠ a ∧ bp - offset + 1 ≠ a

/-- A state in which a piece of code can run: it stands in memory, variables are in their slots
    between `sp` and `bp`, and it overlaps neither the frame nor `depth` bytes below `sp`. Both are
    compared as numbers, so neither wraps round. -/
structure Situated (P : Placement) (frame : Frame) (depth : Nat) (env : Env) (m : Machine) : Prop where
  code : m.memory.Carries P
  below : m.regs.sp.toNat + frame.allocated.toNat ≤ m.regs.bp.toNat
  deep : depth ≤ m.regs.sp.toNat
  slots : ∀ {name offset}, frame.offset? name = some offset → m.memory.readWord (m.regs.bp - offset) = env name
  apart : ∀ k < P.image.length,
    (P.addr k).toNat + frame.allocated.toNat < m.regs.bp.toNat ∨ m.regs.bp.toNat ≤ (P.addr k).toNat
  clear : ∀ k < P.image.length, (P.addr k).toNat + depth < m.regs.sp.toNat ∨ m.regs.sp.toNat ≤ (P.addr k).toNat

/-- What code leaves alone: `sp`, `bp` and `cx`, what was written and returned, and memory but for the
    slots of `names` and `depth` bytes below `sp`. -/
structure Machine.Spares (frame : Frame) (names : List String) (depth : Nat) (m m' : Machine) : Prop where
  sp : m'.regs.sp = m.regs.sp
  bp : m'.regs.bp = m.regs.bp
  cx : m'.regs.cx = m.regs.cx
  output : m'.output = m.output
  returns : m'.returns = m.returns
  memory : ∀ a : UInt16, a.toNat + depth < m.regs.sp.toNat ∨ m.regs.sp.toNat ≤ a.toNat →
    frame.Outside names m.regs.bp a → m'.memory.read a = m.memory.read a

variable {P : Placement} {link : Link} {frame : Frame} {known names : List String} {depth : Nat} {env env' : Env}
  {m m' m'' : Machine}

namespace Machine.Spares

theorem trans (h : m.Spares frame names depth m') (h' : m'.Spares frame names depth m'') :
    m.Spares frame names depth m'' where
  sp := h'.sp.trans h.sp
  bp := h'.bp.trans h.bp
  cx := h'.cx.trans h.cx
  output := h'.output.trans h.output
  returns := h'.returns.trans h.returns
  memory a ha ho := (h'.memory a (h.sp ▸ ha) (h.bp ▸ ho)).trans (h.memory a ha ho)

theorem of_alike (h : m.Alike m') (hcx : m'.regs.cx = m.regs.cx) : m.Spares frame names depth m' :=
  ⟨h.sp, h.bp, hcx, h.output, h.returns, fun _ _ _ => by rw [h.memory]⟩

end Machine.Spares

/-- The bytes around a frame are outside its slots. -/
theorem Frame.Sound.outside (hs : frame.Sound) {bp a : UInt16} (hbp : frame.allocated.toNat ≤ bp.toNat)
    (ha : a.toNat + frame.allocated.toNat < bp.toNat ∨ bp.toNat ≤ a.toNat) : frame.Outside names bp a := by
  intro name _ offset ho
  obtain ⟨-, hlow, hup⟩ := hs.slot hbp ho
  have hlt := bp.toNat_lt
  have next : (bp - offset + 1).toNat = (bp - offset).toNat + 1 :=
    Word.toNat_add rfl (show (bp - offset).toNat + 1 < 65536 by omega)
  constructor <;> rintro rfl <;> omega

namespace Situated

theorem frame_le (h : Situated P frame depth env m) : frame.allocated.toNat ≤ m.regs.bp.toNat :=
  Nat.le_trans (Nat.le_add_left _ _) h.below

/-- Code that spares the rest can be followed by more. -/
theorem spared (h : Situated P frame depth env m) (hs : frame.Sound) (spares : m.Spares frame names depth m')
    (slots : ∀ {name offset}, frame.offset? name = some offset → m'.memory.readWord (m'.regs.bp - offset) = env' name) :
    Situated P frame depth env' m' := by
  refine ⟨fun k b hk => ?_, ?_, ?_, slots, ?_, ?_⟩
  · obtain ⟨hlt, -⟩ := List.getElem?_eq_some_iff.1 hk
    rw [spares.memory _ (h.clear k hlt) (hs.outside h.frame_le (h.apart k hlt))]
    exact h.code k b hk
  · rw [spares.sp, spares.bp]
    exact h.below
  · rw [spares.sp]
    exact h.deep
  · rw [spares.bp]
    exact h.apart
  · rw [spares.sp]
    exact h.clear

/-- Registers for values and flags may change freely. -/
theorem alike (h : Situated P frame depth env m) (hs : frame.Sound) (ha : m.Alike m') (hcx : m'.regs.cx = m.regs.cx) :
    Situated P frame depth env m' := by
  have spares : m.Spares frame [] depth m' := .of_alike ha hcx
  refine h.spared hs spares fun ho => ?_
  rw [ha.memory, ha.bp]
  exact h.slots ho

/-- A store to a slot. -/
theorem assign (h : Situated P frame depth env m) (hs : frame.Sound) {name : String} {offset : UInt16}
    (ho : frame.offset? name = some offset) (hn : name ∈ names) {w : UInt16}
    (ha : (m.store (m.regs.bp - offset) w).Alike m') (hcx : m'.regs.cx = m.regs.cx) :
    Situated P frame depth (env.set name w) m' ∧ m.Spares frame names depth m' := by
  have spares : m.Spares frame names depth m' := by
    refine ⟨ha.sp, ha.bp, hcx, ha.output, ha.returns, fun a _ outside => ?_⟩
    obtain ⟨h0, h1⟩ := outside name hn offset ho
    rw [ha.memory]
    exact Memory.read_writeWord_of_ne h0 h1
  refine ⟨h.spared hs spares fun {other} _ ho' => ?_, spares⟩
  rw [ha.memory, ha.bp]
  refine (hs.readWord_store h.frame_le ho ho' m.memory w).trans ?_
  rw [Env.set]
  split
  · rfl
  · exact h.slots ho'

theorem sp_push (h : Situated P frame (depth + 2) env m) : (m.regs.sp - 2).toNat + 2 = m.regs.sp.toNat := by
  have low : 2 ≤ m.regs.sp.toNat := Nat.le_trans (Nat.le_add_left _ _) h.deep
  rw [UInt16.toNat_sub_of_le _ _ low]
  exact Nat.sub_add_cancel low

/-- A left operand is pushed, which leaves two bytes less for the code of the right one. -/
theorem push (h : Situated P frame (depth + 2) env m) (hs : frame.Sound) {v : UInt16} (ha : (m.push v).Alike m') :
    Situated P frame depth env m' ∧ m'.top = v := by
  have hsp : m'.regs.sp = m.regs.sp - 2 := ha.sp
  have hbp : m'.regs.bp = m.regs.bp := ha.bp
  have hmemory : m'.memory = m.memory.writeWord (m.regs.sp - 2) v := ha.memory
  have low := h.sp_push
  have hdeep := h.deep
  have hbelow := h.below
  have hlt := m.regs.sp.toNat_lt
  have kept : ∀ a : UInt16, a.toNat + 2 < m.regs.sp.toNat ∨ m.regs.sp.toNat ≤ a.toNat →
      m'.memory.read a = m.memory.read a := by
    intro a ha
    rw [hmemory]
    exact Memory.read_writeWord_outside (by omega) (by omega)
  refine ⟨⟨fun k b hk => ?_, ?_, ?_, fun ho => ?_, hbp ▸ h.apart, fun k hk => ?_⟩, ?_⟩
  · obtain ⟨hk', -⟩ := List.getElem?_eq_some_iff.1 hk
    have := h.clear k hk'
    rw [kept _ (by omega)]
    exact h.code k b hk
  · rw [hsp, hbp]
    omega
  · rw [hsp]
    omega
  · obtain ⟨-, hlow, hup⟩ := hs.slot h.frame_le ho
    have := m.regs.bp.toNat_lt
    rw [hbp, Memory.readWord_of_kept (fun a ha => kept a (.inr ha)) (show m.regs.sp.toNat ≤ _ by omega) (by omega)]
    exact h.slots ho
  · have := h.clear k hk
    rw [hsp]
    omega
  · rw [Machine.top, hmemory, hsp]
    exact Memory.readWord_writeWord _ _ _

/-- The code of the right operand leaves the left one on top of the stack. -/
theorem top_kept {m₁ m₂ : Machine} (h : Situated P frame (depth + 2) env m) (hs : frame.Sound) {v : UInt16}
    (ha : (m.push v).Alike m₁) (spares : m₁.Spares frame names depth m₂) : m₂.top = v := by
  have hsp : m₁.regs.sp = m.regs.sp - 2 := ha.sp
  have hbp : m₁.regs.bp = m.regs.bp := ha.bp
  have low := h.sp_push
  have hbelow := h.below
  have hlt := m.regs.sp.toNat_lt
  rw [← hsp] at low
  have next : (m₁.regs.sp + 1).toNat = m₁.regs.sp.toNat + 1 :=
    Word.toNat_add rfl (show m₁.regs.sp.toNat + 1 < 65536 by omega)
  have around (a : UInt16) (h0 : m₁.regs.sp.toNat ≤ a.toNat) (h1 : a.toNat < m.regs.sp.toNat) :
      m₂.memory.read a = m₁.memory.read a :=
    spares.memory a (.inr h0) (hbp ▸ hs.outside h.frame_le (.inl (by omega)))
  rw [← (h.push hs ha).2, Machine.top, Machine.top, spares.sp]
  exact Memory.readWord_congr (around _ (Nat.le_refl _) (by omega)) (around _ (by omega) (by omega))

/-- The left operand is taken off the stack behind the code of the right one. -/
theorem pop {m₁ m₂ : Machine} (h : Situated P frame (depth + 2) env m) (hs : frame.Sound) {v : UInt16}
    (ha : (m.push v).Alike m₁) (hcx : m₁.regs.cx = m.regs.cx) (h₂ : Situated P frame depth env' m₂)
    (spares : m₁.Spares frame names depth m₂) (hd : m₂.drop.Alike m') (hcx' : m'.regs.cx = m₂.regs.cx) :
    Situated P frame (depth + 2) env' m' ∧ m.Spares frame names (depth + 2) m' := by
  have hsp : m₁.regs.sp = m.regs.sp - 2 := ha.sp
  have hbp : m₁.regs.bp = m.regs.bp := ha.bp
  have hmemory : m₁.memory = m.memory.writeWord (m.regs.sp - 2) v := ha.memory
  have hdrop : m'.regs.sp = m₂.regs.sp + 2 := hd.sp
  have low := h.sp_push
  have hlt := m.regs.sp.toNat_lt
  have spares' : m.Spares frame names (depth + 2) m' := by
    refine ⟨?_, hd.bp.trans (spares.bp.trans hbp), hcx'.trans (spares.cx.trans hcx),
      hd.output.trans (spares.output.trans ha.output), hd.returns.trans (spares.returns.trans ha.returns),
      fun a hout ho => ?_⟩
    · rw [hdrop, spares.sp, hsp, UInt16.sub_add_cancel]
    · have below : a.toNat + depth < m₁.regs.sp.toNat ∨ m₁.regs.sp.toNat ≤ a.toNat := by
        rw [hsp]
        omega
      calc m'.memory.read a = m₂.memory.read a := by rw [hd.memory]; rfl
        _ = m₁.memory.read a := spares.memory a below (hbp ▸ ho)
        _ = (m.memory.writeWord (m.regs.sp - 2) v).read a := by rw [hmemory]
        _ = m.memory.read a := Memory.read_writeWord_outside (by omega) (by omega)
  refine ⟨h.spared hs spares' fun ho => ?_, spares'⟩
  rw [hd.memory, hd.bp]
  exact h₂.slots ho

/-- Where an image leaves room for a frame and a stack, its code can run, with zeros in the slots. -/
theorem exists_of_room (hs : frame.Sound)
    (room : P.base.toNat + P.image.length + depth + frame.allocated.toNat ≤ 65535) :
    ∃ m, m.ip = P.base ∧ Situated P frame depth (fun _ => 0) m := by
  have hbp : (0xffff : UInt16).toNat = 65535 := rfl
  have hsp : ((0xffff : UInt16) - frame.allocated).toNat = 65535 - frame.allocated.toNat :=
    UInt16.toNat_sub_of_le _ _ (show frame.allocated.toNat ≤ 65535 by omega)
  have addr {k : Nat} (hk : k < P.image.length) : (P.addr k).toNat = P.base.toNat + k := P.toNat_addr (by omega)
  let mem : Memory := .ofBytes P.base.toNat P.image.toArray
  have zero {a : UInt16} (ha : P.base.toNat + P.image.length ≤ a.toNat) : mem.read a = 0 := by
    have outside : P.image.toArray.size ≤ a.toNat - P.base.toNat := show P.image.length ≤ _ by omega
    rw [Memory.read_ofBytes, if_pos (by omega), Array.getD_eq_getD_getElem?, Array.getElem?_eq_none outside,
      Option.getD_none]
  refine ⟨{ memory := mem, regs := { sp := 0xffff - frame.allocated, bp := 0xffff }, ip := P.base }, rfl,
    .ofBytes rfl rfl (show _ ≤ 65536 by omega), ?_, ?_, fun {name offset} ho => ?_, fun k hk => .inl ?_,
    fun k hk => .inl ?_⟩
  · show ((0xffff : UInt16) - frame.allocated).toNat + frame.allocated.toNat ≤ (0xffff : UInt16).toNat
    omega
  · show depth ≤ ((0xffff : UInt16) - frame.allocated).toNat
    omega
  · obtain ⟨-, hlow, hup⟩ := hs.slot (show frame.allocated.toNat ≤ (0xffff : UInt16).toNat by omega) ho
    have next : (0xffff - offset + 1).toNat = (0xffff - offset).toNat + 1 :=
      Word.toNat_add rfl (show (0xffff - offset).toNat + 1 < 65536 by omega)
    show mem.readWord (0xffff - offset) = 0
    rw [Memory.readWord, zero (by omega), zero (by omega)]
    rfl
  · rw [addr hk]
    show _ < (0xffff : UInt16).toNat
    omega
  · rw [addr hk]
    show _ < ((0xffff : UInt16) - frame.allocated).toNat
    omega

end Situated

/-! ## Delivering a result -/

/-- The machine delivers a result: it comes to a state with the property `Q` of the result, or to a division
    that it cannot do if there is none. -/
def Delivers {α : Type} (m : Machine) (r : Option α) (Q : α → Machine → Prop) : Prop :=
  Comes m fun m' =>
    match r with
    | some a => Q a m'
    | none => m'.CannotDivide

namespace Delivers

variable {α β : Type} {Q : α → Machine → Prop} {R : β → Machine → Prop}

theorem bind {r : Option α} {f : α → Option β} (h : Delivers m r Q) (k : ∀ a m', Q a m' → Delivers m' (f a) R) :
    Delivers m (r >>= f) R := by
  cases r with
  | none => exact h
  | some a => exact Comes.bind h fun m' hq => k a m' hq

/-- More steps, with the same result. -/
theorem next {r : Option α} {Q' : α → Machine → Prop} (h : Delivers m r Q) (k : ∀ a m', Q a m' → Comes m' (Q' a)) :
    Delivers m r Q' := by
  cases r with
  | none => exact h
  | some a => exact Comes.bind h fun m' hq => k a m' hq

theorem mono {r : Option α} {Q' : α → Machine → Prop} (h : Delivers m r Q) (k : ∀ a m', Q a m' → Q' a m') :
    Delivers m r Q' :=
  h.next fun a m' hq => Comes.here (k a m' hq)

end Delivers

/-! ## Single steps -/

section

variable {i j : Nat} (hm : m.memory.Carries P) (hip : m.ip = P.addr i)
include hm hip

theorem comes_push (hb : P.Block i [.push .ax] j) :
    Comes m fun m' => m'.ip = P.addr j ∧ (m.push m.regs.ax).Alike m' ∧ m'.regs.cx = m.regs.cx :=
  Comes.exec hb hm hip rfl rfl fun hb => Comes.here ⟨congrArg P.addr hb.nil, ⟨rfl, rfl, rfl, rfl, rfl⟩, rfl⟩

/-- The right operand goes to `bx`, and the left one comes off the stack. -/
theorem comes_pop (hb : P.Block i [.movReg .bx .ax, .pop .ax] j) :
    Comes m fun m' => m'.ip = P.addr j ∧ m.drop.Alike m' ∧ m'.regs.cx = m.regs.cx ∧ m'.regs.ax = m.top ∧
      m'.regs.bx = m.regs.ax := by
  refine Comes.exec hb hm hip rfl rfl fun hb => ?_
  refine Comes.exec hb hm rfl rfl rfl fun hb => ?_
  exact Comes.here ⟨congrArg P.addr hb.nil, ⟨rfl, rfl, rfl, rfl, rfl⟩, rfl, rfl, rfl⟩

theorem comes_store {name : String} {offset : UInt16} (ho : frame.offset? name = some offset)
    (hb : P.Block i [.storeFrame .ax (frame.disp name)] j) :
    Comes m fun m' => m'.ip = P.addr j ∧ (m.store (m.regs.bp - offset) m.regs.ax).Alike m' ∧ m'.regs.cx = m.regs.cx ∧
      m'.regs.ax = m.regs.ax := by
  have slot := congrArg (m.memory.writeWord · m.regs.ax) (Frame.bp_add_disp ho m.regs.bp)
  exact Comes.exec hb hm hip rfl rfl fun hb => Comes.here ⟨congrArg P.addr hb.nil, ⟨slot, rfl, rfl, rfl, rfl⟩, rfl, rfl⟩

/-- An operator with both operands in place. -/
theorem delivers_operator {op : BinaryOp} (hb : P.Block i op.instrs j) (hs : op.Supported) :
    Delivers m (op.onWords m.regs.ax m.regs.bx) fun c m' =>
      m'.ip = P.addr j ∧ m.Alike m' ∧ m'.regs.cx = m.regs.cx ∧ m'.regs.ax = c := by
  cases hc : op.onWords m.regs.ax m.regs.bx with
  | some c => exact comes_operator hb hm hip hc
  | none => exact comes_fault hb hs hm hip hc

end

/-! ## Leaves -/

/-- Code that is linked for where it stands is so from any of its bytes on. -/
theorem Link.addr_add {pos i : Nat} (h : link.addr pos = P.addr i) (n : Nat) :
    link.addr (pos + n) = P.addr (i + n) := by
  rw [P.addr_add, ← h, addr, addr, UInt16.ofNat_add, UInt16.add_assoc]

section

variable (sound : frame.Sound) (small : P.image.length ≤ 65536)

include small in
/-- The code of a string jumps over its bytes and loads their address. -/
theorem comes_literal {dst : Reg} {text : String} {i pos : Nat}
    (hh : P.Holds i ((Leaf.str text).code link frame dst pos)) (ha : link.addr pos = P.addr i) (hm : m.memory.Carries P)
    (hip : m.ip = P.addr i) :
    Comes m fun m' =>
      m' = { m.set dst (literalAddr (P.addr i) text) with ip := P.addr (i + (Leaf.str text).size frame dst) } := by
  obtain ⟨hjump, -, hload⟩ := Leaf.holds_str hh
  rw [Link.addr_add ha, P.addr_add] at hload
  have inside : _ + 3 ≤ P.image.length := hload.1.le
  refine Comes.jump hjump (lands_jumpOver (by omega)) hm hip ?_
  refine Comes.exec hload hm rfl rfl rfl fun hb => Comes.here ?_
  rw [← hb.nil]
  rfl

include small in
theorem Leaf.comes {dst : Reg} {leaf : Leaf} {i pos : Nat} (hh : P.Holds i (leaf.code link frame dst pos))
    (ha : link.addr pos = P.addr i) (hw : leaf.WellFormed frame) (hm : Situated P frame depth env m)
    (hip : m.ip = P.addr i) :
    Comes m fun m' => m' = { m.set dst (leaf.wordAt (P.addr i) env) with ip := P.addr (i + leaf.size frame dst) } := by
  cases leaf with
  | var name =>
    obtain ⟨offset, ho⟩ := Frame.contains_iff.1 hw
    have hb : P.Block i [.loadFrame dst (frame.disp name)] _ := hh.instr rfl
    refine Comes.exec hb hm.code hip rfl rfl fun _ => Comes.here ?_
    rw [wordAt, ← hm.slots ho, ← Frame.bp_add_disp ho]
    rfl
  | int value =>
    have hb : P.Block i [.movImm dst (UInt16.ofInt value)] _ := hh.instr rfl
    exact Comes.exec hb hm.code hip rfl rfl fun _ => Comes.here rfl
  | str text => exact comes_literal small hh ha hm.code hip

/-! ## Expressions -/

/-- The end of the code of an expression. -/
structure Computed (P : Placement) (frame : Frame) (names : List String) (depth : Nat) (m : Machine) (j : Nat)
    (r : UInt16 × Env) (m' : Machine) : Prop where
  ip : m'.ip = P.addr j
  value : m'.regs.ax = r.1
  situated : Situated P frame depth r.2 m'
  spares : m.Spares frame names depth m'

/-- The end of the code of a right operand: it is in `bx`, and `ax` keeps the left one. -/
structure ComputedRight (P : Placement) (frame : Frame) (names : List String) (depth : Nat) (m : Machine) (j : Nat)
    (r : UInt16 × Env) (m' : Machine) : Prop where
  ip : m'.ip = P.addr j
  left : m'.regs.ax = m.regs.ax
  value : m'.regs.bx = r.1
  situated : Situated P frame depth r.2 m'
  spares : m.Spares frame names depth m'

include sound small

theorem Leaf.delivers (leaf : Leaf) {e : Expr} {i pos : Nat} (he : e.leaf? = some leaf)
    (hh : P.Holds i (leaf.code link frame .ax pos)) (ha : link.addr pos = P.addr i) (hw : leaf.WellFormed frame)
    (hm : Situated P frame depth env m) (hip : m.ip = P.addr i) :
    Delivers m (e.evalAt frame (P.addr i) env) (Computed P frame names depth m (i + leaf.size frame .ax)) := by
  rw [Expr.evalAt_of_leaf he]
  refine (Leaf.comes small hh ha hw hm hip).mono ?_
  rintro m' rfl
  have alike : m.Alike { m.set .ax (leaf.wordAt (P.addr i) env) with ip := P.addr (i + leaf.size frame .ax) } :=
    ⟨rfl, rfl, rfl, rfl, rfl⟩
  exact ⟨rfl, rfl, hm.alike sound alike rfl, .of_alike alike rfl⟩

theorem Expr.delivers_right {e : Expr} {i pos : Nat}
    (he : ∀ {i pos depth m}, P.Holds i (e.code link frame pos) → link.addr pos = P.addr i → e.scratch ≤ depth →
      Situated P frame depth env m → m.ip = P.addr i →
      Delivers m (e.evalAt frame (P.addr i) env) (Computed P frame names depth m (i + e.size frame)))
    (hh : P.Holds i (e.rightCode link frame pos)) (ha : link.addr pos = P.addr i) (hw : e.WellFormed frame known)
    (hd : e.rightScratch ≤ depth) (hm : Situated P frame depth env m) (hip : m.ip = P.addr i) :
    Delivers m (e.evalAt frame (e.operandStart (P.addr i)) env)
      (ComputedRight P frame names depth m (i + e.rightSize frame)) := by
  unfold Expr.rightCode at hh
  unfold Expr.rightScratch at hd
  unfold Expr.operandStart Expr.rightSize
  -- A leaf goes straight to `bx`. Anything else is computed in `ax` while the left operand waits.
  cases hleaf : e.leaf? with
  | some leaf =>
    rw [hleaf] at hh
    rw [Expr.evalAt_of_leaf hleaf]
    rw [Expr.wellFormed_of_leaf hleaf] at hw
    refine (Leaf.comes small hh ha hw hm hip).mono ?_
    rintro m' rfl
    have alike : m.Alike { m.set .bx (leaf.wordAt (P.addr i) env) with ip := P.addr (i + leaf.size frame .bx) } :=
      ⟨rfl, rfl, rfl, rfl, rfl⟩
    exact ⟨rfl, rfl, rfl, hm.alike sound alike rfl, .of_alike alike rfl⟩
  | none =>
    simp only [hleaf, List.append_assoc] at hh hd
    obtain ⟨hpush, hrest⟩ := Placement.Holds.append hh
    obtain ⟨hoperand, hmove⟩ := Placement.Holds.append hrest
    rw [Expr.length_code] at hmove
    obtain ⟨depth, rfl⟩ : ∃ d, depth = d + 2 := ⟨depth - 2, by omega⟩
    rw [show P.addr i + 1 = P.addr (i + 1) from (P.addr_add i 1).symm]
    have behind : P.Block (i + 1 + e.size frame) [.movReg .bx .ax, .pop .ax] (i + (1 + e.size frame + 2 + 1)) :=
      hmove.block (show _ + 3 = _ by omega)
    refine Comes.bind (comes_push hm.code hip (hpush.instr rfl)) fun m₁ ⟨hip₁, pushed, hcx⟩ => ?_
    refine Delivers.next (he hoperand (Link.addr_add ha 1) (by omega) (hm.push sound pushed).1 hip₁) fun r m₂ h => ?_
    refine (comes_pop h.situated.code h.ip behind).mono fun m₃ ⟨hip₃, dropped, hcx₃, hax, hbx⟩ => ?_
    obtain ⟨situated, spares⟩ := hm.pop sound pushed hcx h.situated h.spares dropped hcx₃
    exact ⟨hip₃, hax.trans (hm.top_kept sound pushed h.spares), hbx.trans h.value, situated, spares⟩

-- The induction carries `depth`, of which every operand that waits takes two bytes, and `names`, which
-- are those of the whole expression.

mutual

/-- The code of an expression delivers its value. -/
theorem Expr.delivers {e : Expr} {i pos : Nat} {depth : Nat} {env : Env} {m : Machine}
    (hh : P.Holds i (e.code link frame pos)) (ha : link.addr pos = P.addr i) (hw : e.WellFormed frame known)
    (free : e.callFree) (hn : ∀ name ∈ e.assigned, name ∈ names) (hd : e.scratch ≤ depth)
    (hm : Situated P frame depth env m) (hip : m.ip = P.addr i) :
    Delivers m (e.evalAt frame (P.addr i) env) (Computed P frame names depth m (i + e.size frame)) := by
  match e with
  | .ident name => exact Leaf.delivers sound small (.var name) rfl hh ha hw hm hip
  | .int value => exact Leaf.delivers sound small (.int value) rfl hh ha hw hm hip
  | .str text => exact Leaf.delivers sound small (.str text) rfl hh ha hw hm hip
  | .call _ _ => cases free
  | .assign target value =>
    obtain ⟨htarget, hw⟩ := hw
    obtain ⟨offset, ho⟩ := Frame.contains_iff.1 htarget
    obtain ⟨hvalue, hstore⟩ := Placement.Holds.append hh
    rw [Expr.length_code] at hstore
    rw [Expr.size, ← Nat.add_assoc]
    obtain ⟨hn₀, hn⟩ := List.forall_mem_cons.1 hn
    refine Delivers.bind (Expr.delivers hvalue ha hw free hn hd hm hip) fun ⟨v, env⟩ m₁ h => ?_
    obtain rfl : m₁.regs.ax = v := h.value
    refine (comes_store h.situated.code h.ip ho (hstore.instr rfl)).mono fun m₂ ⟨hip₂, stored, hcx, hax⟩ => ?_
    obtain ⟨situated, spares⟩ := h.situated.assign sound ho hn₀ stored hcx
    exact ⟨hip₂, hax, situated, h.spares.trans spares⟩
  | .chain operands operators =>
    obtain ⟨hl, hs, hw⟩ := hw
    match operands with
    | [] => exact absurd hl (Nat.succ_ne_zero _).symm
    | first :: rest =>
      obtain ⟨hfirst, hrest⟩ := Placement.Holds.append hh
      rw [Expr.length_code] at hrest
      rw [Expr.callFree, allCallFree, Bool.and_eq_true] at free
      rw [Expr.scratch, Nat.max_le] at hd
      obtain ⟨hn, hn'⟩ := List.forall_mem_append.1 hn
      rw [Expr.evalAt.eq_def, Expr.size]
      refine Delivers.bind (Expr.delivers hfirst ha hw.1 free.1 hn hd.1 hm hip) fun ⟨v, env⟩ m₁ h => ?_
      obtain rfl : m₁.regs.ax = v := h.value
      dsimp only
      rw [← P.addr_add, ← Nat.add_assoc]
      refine (tail_delivers hrest (Link.addr_add ha _) hw.2 hs (Nat.succ.inj hl) free.2 hn' hd.2 h.situated h.ip).mono
        fun r m₂ h₂ => ?_
      exact ⟨h₂.ip, h₂.value, h₂.situated, h.spares.trans h₂.spares⟩

/-- The operators of a chain, with the value so far in `ax`. -/
theorem tail_delivers {ops : List BinaryOp} {operands : List Expr} {i pos : Nat} {depth : Nat} {env : Env} {m : Machine}
    (hh : P.Holds i (tailCode link frame pos ops operands)) (ha : link.addr pos = P.addr i)
    (hw : allWellFormed frame known operands) (hs : ∀ op ∈ ops, op.Supported) (hl : operands.length = ops.length)
    (free : allCallFree operands) (hn : ∀ name ∈ allAssigned operands, name ∈ names) (hd : tailScratch operands ≤ depth)
    (hm : Situated P frame depth env m) (hip : m.ip = P.addr i) :
    Delivers m (evalTailAt frame (P.addr i) m.regs.ax env ops operands)
      (Computed P frame names depth m (i + tailSize frame ops operands)) := by
  match ops, operands with
  | [], [] => exact Comes.here ⟨hip, rfl, hm, .of_alike ⟨rfl, rfl, rfl, rfl, rfl⟩ rfl⟩
  | [], _ :: _ | _ :: _, [] => cases hl
  | op :: ops, operand :: operands =>
    rw [tailCode_cons] at hh
    obtain ⟨hfront, hrest⟩ := Placement.Holds.append hh
    obtain ⟨hright, hop⟩ := Placement.Holds.append hfront
    rw [List.length_append, ← Nat.add_assoc] at hrest
    rw [Expr.length_rightCode] at hop hrest
    rw [allCallFree, Bool.and_eq_true] at free
    rw [tailScratch_cons, Nat.max_le] at hd
    obtain ⟨hs, hs'⟩ := List.forall_mem_cons.1 hs
    obtain ⟨hn, hn'⟩ := List.forall_mem_append.1 hn
    have start := Link.addr_add (Link.addr_add ha (operand.rightSize frame)) (encodeAll op.instrs).length
    rw [evalTailAt, tailSize_cons, ← P.addr_add]
    simp only [← Nat.add_assoc]
    refine Delivers.bind (Expr.delivers_right sound small (fun hh ha hd hm hip =>
      Expr.delivers hh ha hw.1 free.1 hn hd hm hip) hright ha hw.1 hd.1 hm hip) fun ⟨w, env⟩ m₁ h => ?_
    obtain rfl : m₁.regs.bx = w := h.value
    dsimp only
    rw [← h.left]
    refine Delivers.bind (delivers_operator h.situated.code h.ip (hop.block rfl) hs)
      fun v m₂ ⟨hip₂, alike, hcx, hax⟩ => ?_
    subst hax
    refine (tail_delivers hrest start hw.2 hs' (Nat.succ.inj hl) free.2 hn' hd.2
      (h.situated.alike sound alike hcx) hip₂).mono
      fun r m₃ h₃ => ?_
    exact ⟨h₃.ip, h₃.value, h₃.situated, (h.spares.trans (.of_alike alike hcx)).trans h₃.spares⟩

end

end

/-! ## Strings -/

/-- Memory holds each string at its address, with a sentinel behind it. -/
def Memory.ShowsTexts (mem : Memory) (texts : List (UInt16 × String)) : Prop :=
  ∀ l ∈ texts, mem.Shows l.1 (charBytes l.2 ++ [DosFunction.sentinel])

theorem Leaf.shows_literals {dst : Reg} {leaf : Leaf} {i pos : Nat} {mem : Memory} (hm : mem.Carries P)
    (hh : P.Holds i (leaf.code link frame dst pos)) :
    mem.ShowsTexts (leaf.literals (P.addr i)) := by
  cases leaf with
  | var _ | int _ => exact fun l hl => absurd hl List.not_mem_nil
  | str text =>
    intro l hl
    obtain rfl := List.mem_singleton.1 hl
    have shown := hm.shows (Leaf.holds_str hh).2.1
    rwa [P.addr_add] at shown

theorem Expr.shows_literals_right {e : Expr} {i pos : Nat} {mem : Memory} (hm : mem.Carries P)
    (he : ∀ {i pos}, P.Holds i (e.code link frame pos) →
      mem.ShowsTexts (e.literals frame (P.addr i)))
    (hh : P.Holds i (e.rightCode link frame pos)) :
    mem.ShowsTexts (e.literals frame (e.operandStart (P.addr i))) := by
  unfold Expr.rightCode at hh
  unfold Expr.operandStart
  cases hleaf : e.leaf? with
  | some leaf =>
    rw [hleaf] at hh
    rw [Expr.literals_of_leaf hleaf]
    exact Leaf.shows_literals hm hh
  | none =>
    simp only [hleaf, List.append_assoc] at hh
    have behind : P.Holds (i + 1) (e.code link frame (pos + 1)) := (Placement.Holds.append hh).2.append.1
    rw [show P.addr i + 1 = P.addr (i + 1) from (P.addr_add i 1).symm]
    exact he behind

mutual

/-- Each string stands at its address, with a sentinel behind it. -/
theorem Expr.shows_literals {e : Expr} {i pos : Nat} {mem : Memory} (hm : mem.Carries P)
    (hh : P.Holds i (e.code link frame pos)) :
    mem.ShowsTexts (e.literals frame (P.addr i)) := by
  match e with
  | .ident name => exact Leaf.shows_literals hm hh
  | .int value => exact Leaf.shows_literals hm hh
  | .str text => exact Leaf.shows_literals hm hh
  | .call _ _ => exact fun l hl => absurd hl List.not_mem_nil
  | .assign _ value => exact Expr.shows_literals (e := value) hm (Placement.Holds.append hh).1
  | .chain operands operators =>
    match operands with
    | [] => exact fun l hl => absurd hl List.not_mem_nil
    | first :: rest =>
      obtain ⟨hfirst, hrest⟩ := Placement.Holds.append hh
      rw [Expr.length_code] at hrest
      rw [Expr.literals, ← P.addr_add]
      exact List.forall_mem_append.2 ⟨Expr.shows_literals hm hfirst, tail_shows_literals hm hrest⟩

theorem tail_shows_literals {ops : List BinaryOp} {operands : List Expr} {i pos : Nat} {mem : Memory}
    (hm : mem.Carries P) (hh : P.Holds i (tailCode link frame pos ops operands)) :
    mem.ShowsTexts (tailLiterals frame (P.addr i) ops operands) := by
  match ops, operands with
  | [], [] | [], _ :: _ | _ :: _, [] => exact fun l hl => absurd hl List.not_mem_nil
  | op :: ops, operand :: operands =>
    rw [tailCode_cons] at hh
    obtain ⟨hfront, hrest⟩ := Placement.Holds.append hh
    obtain ⟨hright, -⟩ := Placement.Holds.append hfront
    rw [List.length_append, Expr.length_rightCode] at hrest
    rw [tailLiterals, ← P.addr_add]
    exact List.forall_mem_append.2 ⟨Expr.shows_literals_right hm (fun hh => Expr.shows_literals hm hh) hright,
      tail_shows_literals hm hrest⟩

end

/-! ## Lowering -/

/-- What has been appended since a state, and where it will be loaded. -/
def Generator.appended (g g' : Generator) : Placement :=
  ⟨g'.image.bytes.toList.drop g.image.size, g.image.address, []⟩

/-- A step that succeeds has appended its bytes. -/
theorem Emits.appended {x : Gen Unit} {g g' : Generator} {ok : Prop} {bytes : List UInt8}
    (hx : Emits x g ok () bytes g.frames) (h : x g = .ok () g') :
    ok ∧ g.Fits bytes.length ∧ g.appended g' = ⟨bytes, g.image.address, []⟩ ∧
      g'.image.address = g.image.address + UInt16.ofNat bytes.length := by
  obtain ⟨done, refused⟩ := hx g.events
  by_cases hw : ok ∧ g.Fits bytes.length
  · obtain ⟨events, run⟩ := done hw
    obtain rfl : { g.extend bytes g.frames with events } = g' := by
      rw [h] at run
      cases run
      rfl
    refine ⟨hw.1, hw.2, ?_, ?_⟩
    · rw [Generator.appended]
      congr 1
      simp only [Generator.extend, Array.toList_appendList]
      exact List.drop_left' Array.length_toList
    · show g.image.loadBase + UInt16.ofNat (g.extend _ g.frames).image.size = _
      rw [Generator.size_extend, UInt16.ofNat_add, ← UInt16.add_assoc]
      rfl
  · obtain ⟨_, _, run⟩ := refused hw
    rw [h] at run
    cases run

/-- Lowering that succeeds has appended the code of a well-formed expression. -/
theorem Expr.lower_ok {e : Expr} {g g' : Generator} {rest : Frames} (ready : Ready g frame rest)
    (h : e.lower g = .ok () g') :
    e.WellFormed frame g.known ∧ g.Fits (e.size frame) ∧
      g.appended g' = ⟨e.code g.link frame g.image.size, g.image.address, []⟩ ∧
      g'.image.address = g.image.address + UInt16.ofNat (e.size frame) := by
  have appended := (e.emits ready).appended h
  rwa [Expr.length_code] at appended

/-- Lowering an expression without calls appends code that delivers its value: run where it will be
    loaded, it comes to its end with the value in `ax` and the variables in their slots, or it stops at a
    division that has no quotient. Strings stand at the addresses that are their values. -/
theorem Expr.lower_delivers {e : Expr} {g g' : Generator} {frame : Frame} {rest : Frames} {env : Env} {m : Machine}
    (opened : g.frames = frame :: rest) (built : frame.Built) (room : g.image.size ≤ g.image.capacity)
    (segment : g.image.capacity ≤ segmentSize) (free : e.callFree) (accepted : e.lower g = .ok () g')
    (hm : Situated (g.appended g') frame e.scratch env m) (hip : m.ip = g.image.address) :
    Delivers m (e.evalAt frame g.image.address env) fun r m' =>
      m'.ip = g'.image.address ∧ m'.regs.ax = r.1 ∧ Situated (g.appended g') frame e.scratch r.2 m' ∧
        m.Spares frame e.assigned e.scratch m' ∧ m'.memory.ShowsTexts (e.literals frame g.image.address) := by
  have ready : Ready g frame rest := ⟨opened, built.sound, room, segment⟩
  obtain ⟨hw, fits, same, address⟩ := Expr.lower_ok ready accepted
  rw [same] at hm ⊢
  generalize hP : (⟨e.code g.link frame g.image.size, g.image.address, []⟩ : Placement) = P at hm ⊢
  have hh : P.Holds 0 (e.code g.link frame g.image.size) := ⟨[], [], by rw [← hP]; simp, rfl⟩
  have start : P.addr 0 = g.image.address := by
    rw [← hP]
    exact UInt16.add_zero _
  have small : P.image.length ≤ 65536 := by
    rw [← hP]
    show (e.code g.link frame g.image.size).length ≤ 65536
    rw [Expr.length_code]
    rw [Generator.Fits] at fits
    have : g.image.capacity ≤ 65536 := segment
    omega
  have stop : P.addr (0 + e.size frame) = g'.image.address := by rw [P.addr_add, start, address]
  rw [← start] at hip ⊢
  refine (Expr.delivers built.sound small hh start.symm hw free (fun _ h => h) (Nat.le_refl _) hm hip).mono
    fun r m' h => ?_
  exact ⟨h.ip.trans stop, h.value, h.situated, h.spares, Expr.shows_literals h.situated.code hh⟩

/-- In `(x = 7) - (x = x - 2)` the second assignment reads what the first has stored. -/
theorem Expr.lower_delivers_assigned_twice :
    let e : Expr := .chain [.assign "x" (.int 7), .assign "x" (.chain [.ident "x", .int 2] [.sub])] [.sub]
    let frame : Frame := ⟨"main", 2, [("x", 2)]⟩
    let g : Generator := { image := ⟨#[], 0x100, 64⟩, frames := [frame] }
    ∃ g' m, e.lower g = .ok () g' ∧ m.ip = 0x100 ∧ Situated (g.appended g') frame 2 (fun _ => 0) m ∧
      Comes m fun m' => m'.regs.ax = 2 ∧ m'.memory.readWord (m'.regs.bp - 2) = 5 ∧ m.Spares frame ["x", "x"] 2 m' := by
  intro e frame g
  have built : frame.Built :=
    .declare (.start "main") (show Frame.declare "x" 2 _ = .ok 2 frame from rfl) (Nat.le_refl 2)
  obtain ⟨g', accepted⟩ : ∃ g', e.lower g = .ok () g' := ⟨_, rfl⟩
  have room : g.image.size ≤ g.image.capacity := by decide
  have segment : g.image.capacity ≤ segmentSize := by decide
  have ready : Ready g frame [] := ⟨rfl, built.sound, room, segment⟩
  have length : (g.appended g').image.length = 23 := by
    rw [(lower_ok ready accepted).2.2.1, Expr.length_code]
    decide +kernel
  obtain ⟨m, hip, situated⟩ :
      ∃ m, m.ip = g.image.address ∧ Situated (g.appended g') frame e.scratch (fun _ => 0) m := by
    refine Situated.exists_of_room (P := g.appended g') built.sound ?_
    rw [length]
    show g.image.address.toNat + 23 + e.scratch + frame.allocated.toNat ≤ 65535
    decide +kernel
  have value : (e.evalAt frame g.image.address fun _ => 0).map (fun r => (r.1, r.2 "x")) =
      some (2, 5) := by decide +kernel
  obtain ⟨⟨v, env⟩, value, hr⟩ := Option.map_eq_some_iff.1 value
  have delivered := lower_delivers rfl built room segment rfl accepted situated hip
  rw [value] at delivered
  refine ⟨g', m, accepted, hip, situated, Comes.mono delivered fun m' h => ?_⟩
  obtain ⟨-, hv, at', spares, -⟩ := h
  have slot : frame.offset? "x" = some 2 := by decide
  exact ⟨hv.trans (congrArg Prod.fst hr), (at'.slots slot).trans (congrArg Prod.snd hr), spares⟩

end DotCom
