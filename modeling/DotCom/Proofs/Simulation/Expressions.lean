/-
  DotCom.Proofs.Simulation.Expressions — the code of an expression does what the expression means.
  `Models` ties the machine to an activation: its variables lie in their slots below `bp`, and what
  was written and returned is what the trace says. Code keeps everything from the stack pointer up,
  the slots apart (`Keeps`).

  - `Expr.reaches`: from a state that models an activation, the code of an expression comes to one
    that models the activation after it, with the value in `ax`.
-/

import DotCom.Proofs.Machine.Operators
import DotCom.Proofs.Slots

namespace DotCom

variable {P : Placement}

/-! ## Values and traces -/

/-- A word that stands for a value. A pointer leads to the bytes of its string, one for each
    character, and the sentinel behind them. -/
def Value.Matches (P : Placement) : Value → UInt16 → Prop
  | .word v, w => w = v
  | .text s, w =>
    (∀ c ∈ s.toList, c.toNat ≤ 255) ∧ ∃ pos, P.Holds pos (charBytes s ++ [DosFunction.sentinel]) ∧ w = P.addr pos
  | .unknown, _ => True

/-- The machine has written and returned what a trace says. -/
structure Machine.Traced (P : Placement) (m : Machine) (trace : Trace) : Prop where
  output : m.output.toList = trace.output
  returns : List.Forall₂ (Value.Matches P) trace.returns m.returns.toList

theorem Machine.Traced.congr {m m' : Machine} {trace : Trace} (h : m.Traced P trace) (ho : m'.output = m.output)
    (hr : m'.returns = m.returns) : m'.Traced P trace :=
  ⟨ho ▸ h.output, hr ▸ h.returns⟩

/-! ## States -/

/-- A state inside an activation. -/
structure Models (P : Placement) (frame : Frame) (m : Machine) (s : Activation) : Prop where
  code : m.memory.Carries P
  room : P.stop ≤ m.regs.sp.toNat
  below : m.regs.sp.toNat + frame.allocated.toNat ≤ m.regs.bp.toNat
  locals : ∀ {name offset v}, frame.offset? name = some offset → s.locals name = some v →
    v.Matches P (m.memory.readWord (m.regs.bp - offset))
  traced : m.Traced P s.trace

/-- What the code of an expression keeps: `bp`, and memory from `sp` up but for the slots of the
    frame. It leaves `pushed` bytes more on the stack. -/
structure Keeps (frame : Frame) (pushed : Nat) (m m' : Machine) : Prop where
  sp : m'.regs.sp.toNat + pushed = m.regs.sp.toNat
  bp : m'.regs.bp = m.regs.bp
  memory : ∀ a : UInt16, m.regs.sp.toNat ≤ a.toNat →
    a.toNat + frame.allocated.toNat < m.regs.bp.toNat ∨ m.regs.bp.toNat ≤ a.toNat → m'.memory.read a = m.memory.read a

theorem Keeps.trans {frame : Frame} {n k : Nat} {m m' m'' : Machine} (h : Keeps frame n m m')
    (h' : Keeps frame k m' m'') :
    Keeps frame (n + k) m m'' := by
  refine ⟨?_, h'.bp.trans h.bp, fun a ha hr => ?_⟩
  · have := h.sp
    have := h'.sp
    omega
  · have := h.sp
    rw [h'.memory a (by omega) (h.bp ▸ hr), h.memory a ha hr]

/-- Registers for values and flags may change freely. -/
theorem Models.alike {frame : Frame} {m m' : Machine} {s : Activation} (h : Models P frame m s) (ha : m.Alike m') :
    Models P frame m' s where
  code := ha.memory ▸ h.code
  room := ha.sp ▸ h.room
  below := by
    rw [ha.sp, ha.bp]
    exact h.below
  locals ho hv := by
    rw [ha.memory, ha.bp]
    exact h.locals ho hv
  traced := h.traced.congr ha.output ha.returns

theorem Machine.Alike.keeps {frame : Frame} {m m' : Machine} (ha : m.Alike m') : Keeps frame 0 m m' :=
  ⟨by rw [ha.sp, Nat.add_zero], ha.bp, fun a _ _ => by rw [ha.memory]⟩

/-! ## Slots -/

theorem Frame.bp_add_disp {frame : Frame} {name : String} {offset : UInt16} (h : frame.offset? name = some offset)
    (bp : UInt16) : bp + (frame.disp name).toUInt16 = bp - offset := by
  rw [Frame.disp_eq h, Int16.toUInt16_neg, UInt16.toUInt16_toInt16, UInt16.sub_eq_add_neg]

/-- A slot lies below `bp`, among the bytes of its frame. -/
theorem Frame.Sound.slot {frame : Frame} (hs : frame.Sound) {bp : UInt16} (hbp : frame.allocated.toNat ≤ bp.toNat)
    {name : String} {offset : UInt16} (ho : frame.offset? name = some offset) :
    (bp - offset).toNat = bp.toNat - offset.toNat ∧ bp.toNat ≤ (bp - offset).toNat + frame.allocated.toNat ∧
      (bp - offset).toNat + 2 ≤ bp.toNat := by
  have := hs.inside ho
  have e := UInt16.toNat_sub_of_le _ _ (show offset.toNat ≤ bp.toNat by omega)
  refine ⟨e, ?_, ?_⟩ <;> omega

/-- A store to a slot is seen in its own variable only. -/
theorem Frame.Sound.readWord_store {frame : Frame} (hs : frame.Sound) {bp : UInt16}
    (hbp : frame.allocated.toNat ≤ bp.toNat) {name other : String} {offset offset' : UInt16}
    (ho : frame.offset? name = some offset) (ho' : frame.offset? other = some offset') (mem : Memory) (w : UInt16) :
    (mem.writeWord (bp - offset) w).readWord (bp - offset') =
      if other = name then w else mem.readWord (bp - offset') := by
  split
  · subst other
    rw [ho] at ho'
    cases ho'
    exact Memory.readWord_writeWord mem _ w
  · rename_i ne
    have apart := hs.apart ho' ho ne
    obtain ⟨e, -, hup⟩ := hs.slot hbp ho
    obtain ⟨e', -, hup'⟩ := hs.slot hbp ho'
    have := hs.inside ho
    have := hs.inside ho'
    have := bp.toNat_lt
    have next : (bp - offset' + 1).toNat = (bp - offset').toNat + 1 :=
      Word.toNat_add rfl (show (bp - offset').toNat + 1 < 65536 by omega)
    exact Memory.readWord_congr (Memory.read_writeWord_outside (by omega) (by omega))
      (Memory.read_writeWord_outside (by omega) (by omega))

/-- A slot lies between `sp` and `bp`. -/
theorem Models.slot {frame : Frame} {m : Machine} {s : Activation} (h : Models P frame m s) (hs : frame.Sound)
    {name : String} {offset : UInt16} (ho : frame.offset? name = some offset) :
    (m.regs.bp - offset).toNat = m.regs.bp.toNat - offset.toNat ∧ m.regs.sp.toNat ≤ (m.regs.bp - offset).toNat ∧
      m.regs.bp.toNat ≤ (m.regs.bp - offset).toNat + frame.allocated.toNat ∧
      (m.regs.bp - offset).toNat + 2 ≤ m.regs.bp.toNat := by
  have := h.below
  obtain ⟨e, hlow, hup⟩ := hs.slot (show frame.allocated.toNat ≤ m.regs.bp.toNat by omega) ho
  refine ⟨e, ?_, hlow, hup⟩
  omega

/-- Variables keep their values while memory from `sp` up is kept. -/
theorem Models.locals_of_kept {frame : Frame} {m : Machine} {s : Activation} (h : Models P frame m s) (hs : frame.Sound)
    {mem : Memory} (kept : ∀ a : UInt16, m.regs.sp.toNat ≤ a.toNat → mem.read a = m.memory.read a)
    {name : String} {offset : UInt16} {v : Value} (ho : frame.offset? name = some offset)
    (hv : s.locals name = some v) :
    v.Matches P (mem.readWord (m.regs.bp - offset)) := by
  obtain ⟨-, hsp, -, hbp⟩ := h.slot hs ho
  have hlt := m.regs.bp.toNat_lt
  rw [Memory.readWord_of_kept kept hsp (by omega)]
  exact h.locals ho hv

theorem Models.assign {frame : Frame} {m : Machine} {s : Activation} (h : Models P frame m s) (hs : frame.Sound)
    (hP : P.Sits) {name : String} {offset : UInt16} (ho : frame.offset? name = some offset) {v : Value} {w : UInt16}
    (hv : v.Matches P w) :
    Models P frame (m.store (m.regs.bp - offset) w) (s.assign name v) := by
  obtain ⟨e, hsp, -, hbp⟩ := h.slot hs ho
  have hlt := m.regs.bp.toNat_lt
  refine ⟨h.code.writeWord w hP.segment (Nat.le_trans h.room hsp) (by omega), h.room, h.below, ?_,
    h.traced.congr rfl rfl⟩
  intro other offset' v' ho' hv'
  show v'.Matches P ((m.memory.writeWord (m.regs.bp - offset) w).readWord (m.regs.bp - offset'))
  rw [hs.readWord_store (Nat.le_trans (Nat.le_add_left _ _) h.below) ho ho']
  rw [Activation.locals_assign] at hv'
  split at hv' <;> rename_i same
  · cases hv'
    rwa [if_pos same]
  · rw [if_neg same]
    exact h.locals ho' hv'

theorem keeps_store {frame : Frame} {m : Machine} {s : Activation} (h : Models P frame m s) (hs : frame.Sound)
    {name : String} {offset : UInt16} (ho : frame.offset? name = some offset) (w : UInt16) :
    Keeps frame 0 m (m.store (m.regs.bp - offset) w) := by
  obtain ⟨e, hsp, hlow, hbp⟩ := h.slot hs ho
  have hlt := m.regs.bp.toNat_lt
  exact ⟨rfl, rfl, fun a _ hr => Memory.read_writeWord_outside (by omega) (by omega)⟩

/-! ## The stack -/

/-- A word pushed lies on top, and nothing above it changes. -/
theorem Models.push {frame : Frame} {m m' : Machine} {s : Activation} {v : UInt16} (h : Models P frame m s)
    (hs : frame.Sound) (hP : P.Sits) (room : P.stop ≤ m'.regs.sp.toNat) (hsp : m'.regs.sp = m.regs.sp - 2)
    (hbp : m'.regs.bp = m.regs.bp) (hmemory : m'.memory = m.memory.writeWord (m.regs.sp - 2) v)
    (ho : m'.output = m.output) (hr : m'.returns = m.returns) :
    Models P frame m' s ∧ Keeps frame 2 m m' ∧ m'.top = v := by
  have hlow := Nat.le_trans hP.stop h.room
  have hsp' : m'.regs.sp.toNat = m.regs.sp.toNat - 2 := hsp ▸ UInt16.toNat_sub_of_le _ _ hlow
  have hlt := m.regs.sp.toNat_lt
  have hbelow := h.below
  have kept : ∀ a : UInt16, m.regs.sp.toNat ≤ a.toNat → m'.memory.read a = m.memory.read a := by
    intro a ha
    rw [hmemory]
    exact Memory.read_writeWord_push hlow ha
  refine ⟨⟨?_, room, ?_, ?_, h.traced.congr ho hr⟩, ⟨?_, hbp, fun a ha _ => kept a ha⟩, ?_⟩
  · rw [hmemory, ← hsp]
    exact h.code.writeWord v hP.segment room (by omega)
  · rw [hbp]
    omega
  · intro name offset w ho hv
    rw [hbp]
    exact h.locals_of_kept hs kept ho hv
  · omega
  · rw [Machine.top, hmemory, hsp]
    exact Memory.readWord_writeWord _ _ _

/-- What was pushed last is still on top. -/
theorem Keeps.top {frame : Frame} {m m' : Machine} (h : Keeps frame 0 m m')
    (hb : m.regs.sp.toNat + 2 + frame.allocated.toNat ≤ m.regs.bp.toNat) : m'.top = m.top := by
  have hsp : m'.regs.sp = m.regs.sp := UInt16.toNat_inj.1 h.sp
  have hlt := m.regs.bp.toNat_lt
  have next : (m.regs.sp + 1).toNat = m.regs.sp.toNat + 1 :=
    Word.toNat_add rfl (show m.regs.sp.toNat + 1 < 65536 by omega)
  rw [Machine.top, Machine.top, hsp]
  exact Memory.readWord_congr (h.memory _ (Nat.le_refl _) (.inl (by omega))) (h.memory _ (by omega) (.inl (by omega)))

/-- The words pushed are taken off the stack again. -/
theorem Keeps.release {frame : Frame} {n : Nat} {m₀ m m' : Machine} (h : Keeps frame n m₀ m)
    (hsp : m'.regs.sp.toNat = m.regs.sp.toNat + n) (hbp : m'.regs.bp = m.regs.bp) (hmemory : m'.memory = m.memory) :
    Keeps frame 0 m₀ m' :=
  ⟨hsp.trans h.sp, hbp.trans h.bp, fun a ha hr => hmemory ▸ h.memory a ha hr⟩

theorem Models.release {frame : Frame} {n : Nat} {m₀ m m' : Machine} {s₀ s : Activation} (h : Models P frame m s)
    (h₀ : Models P frame m₀ s₀) (hk : Keeps frame n m₀ m) (hsp : m'.regs.sp.toNat = m.regs.sp.toNat + n)
    (hbp : m'.regs.bp = m.regs.bp) (hmemory : m'.memory = m.memory) (ho : m'.output = m.output)
    (hr : m'.returns = m.returns) : Models P frame m' s where
  code := hmemory ▸ h.code
  room := by
    rw [hsp, hk.sp]
    exact h₀.room
  below := by
    rw [hsp, hk.sp, hbp, hk.bp]
    exact h₀.below
  locals hname hv := by
    rw [hmemory, hbp]
    exact h.locals hname hv
  traced := h.traced.congr ho hr

/-! ## Leaves -/

/-- What a leaf is worth. -/
def Leaf.value? (s : Activation) : Leaf → Option Value
  | .var name => s.locals name
  | .int value => some (.word (UInt16.ofInt value))
  | .str text => some (.text text)

theorem Expr.eval_of_leaf {e : Expr} {leaf : Leaf} (h : e.leaf? = some leaf) (call : CallMeaning) (s : Activation) :
    e.eval call s = (leaf.value? s).map fun v => (v, s) := by
  cases e with
  | ident _ | int _ | str _ =>
    cases h
    rfl
  | call _ _ | assign _ _ | chain _ _ => exact nomatch h

/-- Where a jump lands. -/
theorem Reaches.jump {m : Machine} {Q : Machine → Prop} {jump : Instr} {i k l : Nat} (hb : P.Block i [jump] k)
    (hj : jump.Lands k l) (hm : m.memory.Carries P) (hip : m.ip = P.addr i)
    (next : Reaches P { m with ip := P.addr l } Q) : Reaches P m Q := Comes.jump hb hj hm hip next

theorem Leaf.reaches {frame : Frame} {dst : Reg} {leaf : Leaf} {i j : Nat} {m : Machine} {s : Activation} {v : Value}
    (hl : leaf.At P frame dst i j) (hw : leaf.WellFormed frame) (hm : Models P frame m s) (hip : m.ip = P.addr i)
    (hv : leaf.value? s = some v) :
    Reaches P m fun m' => ∃ w, v.Matches P w ∧ m' = { m.set dst w with ip := P.addr j } := by
  cases leaf with
  | var name =>
    obtain ⟨offset, ho⟩ := Frame.contains_iff.1 hw
    refine Reaches.exec hl hm.code hip rfl rfl fun hb =>
      Reaches.here ⟨m.memory.readWord (m.regs.bp - offset), hm.locals ho hv, ?_⟩
    rw [← hb.nil, ← Frame.bp_add_disp ho]
    rfl
  | int value =>
    cases hv
    refine Reaches.exec hl hm.code hip rfl rfl fun hb => Reaches.here ⟨UInt16.ofInt value, rfl, ?_⟩
    rw [← hb.nil]
    rfl
  | str text =>
    cases hv
    obtain ⟨jump, k, l, address, hjump, htext, rfl, hlands, hload, haddress⟩ := hl
    refine Reaches.jump hjump hlands hm.code hip ?_
    refine Reaches.exec hload hm.code rfl rfl rfl fun hb => Reaches.here ⟨address, ⟨hw, k, htext, haddress.eq_addr⟩, ?_⟩
    rw [← hb.nil]
    rfl

/-! ## Printing -/

/-- The bytes printed are those up to the first sentinel. -/
theorem printed_of_shows {mem : Memory} {bytes : List UInt8} {a : UInt16} {n : Nat}
    (h : mem.Shows a (bytes ++ [DosFunction.sentinel])) (hn : bytes.length < n) (acc : Array UInt8) :
    Machine.printed mem n a acc = some (acc ++ bytes.takeWhile (· ≠ DosFunction.sentinel)) := by
  induction bytes generalizing a n acc with
  | nil =>
    cases n with
    | zero => exact absurd hn (Nat.not_lt_zero _)
    | succ n =>
      rw [Machine.printed, h.1]
      rfl
  | cons b bytes ih =>
    cases n with
    | zero => exact absurd hn (Nat.not_lt_zero _)
    | succ n =>
      obtain ⟨hb, hrest⟩ := h
      rw [Machine.printed, hb]
      by_cases hs : b = DosFunction.sentinel
      · rw [List.takeWhile_cons_of_neg (by simp [hs])]
        simp [hs]
      · rw [List.takeWhile_cons_of_pos (by simpa using hs)]
        simp only [if_neg hs, ih hrest (Nat.lt_of_succ_lt_succ hn)]
        exact congrArg some (Array.ext' (by simp))

theorem takeWhile_charBytes {text : String} (h : ∀ c ∈ text.toList, c.toNat ≤ 255) :
    (charBytes text).takeWhile (· ≠ DosFunction.sentinel) =
      (text.toList.takeWhile (· ≠ '$')).map fun c => UInt8.ofNat c.toNat := by
  have same : ∀ c : Char, c.toNat ≤ 255 → (UInt8.ofNat c.toNat = DosFunction.sentinel ↔ c = '$') := by
    intro c hc
    rw [← UInt8.toNat_inj, UInt8.toNat_ofNat_of_lt' (show c.toNat < 256 by omega), ← Char.toNat_inj]
    rfl
  rw [charBytes]
  generalize text.toList = cs at h
  induction cs with
  | nil => rfl
  | cons c cs ih =>
    have hc := same c (h c List.mem_cons_self)
    have rest := ih fun d hd => h d (List.mem_cons_of_mem _ hd)
    by_cases e : c = '$'
    · rw [List.map_cons, List.takeWhile_cons_of_neg (by simp [hc.2 e]), List.takeWhile_cons_of_neg (by simp [e]),
        List.map_nil]
    · rw [List.map_cons, List.takeWhile_cons_of_pos (by simpa using fun he => e (hc.1 he)),
        List.takeWhile_cons_of_pos (by simpa using e), List.map_cons, rest]

theorem Machine.dos_print {m : Machine} {mem : Memory} {dx : UInt16} {bytes : Array UInt8}
    (hn : Word.high m.regs.ax = DosFunction.printString.number) (hm : m.memory = mem) (hdx : m.regs.dx = dx)
    (hp : printed mem 65536 dx #[] = some bytes) : m.dos = .running { m with output := m.output ++ bytes } := by
  simp only [dos, hn, hm, hdx, if_true, hp]

/-- What a state models once more has been written. -/
theorem Models.print {frame : Frame} {m m' : Machine} {s : Activation} {text : String} (h : Models P frame m s)
    (ha : m.Alike m') (hchars : ∀ c ∈ text.toList, c.toNat ≤ 255) :
    Models P frame
      { m' with output := m.output ++ ((#[] : Array UInt8) ++ (charBytes text).takeWhile (· ≠ DosFunction.sentinel)) }
      (s.print text) := by
  have h' := h.alike ha
  refine ⟨h'.code, h'.room, h'.below, h'.locals, ⟨?_, h'.traced.returns⟩⟩
  rw [takeWhile_charBytes hchars, Array.toList_append, h.traced.output]
  simp only [Array.toList_appendList, List.nil_append]
  rfl

/-- The code that prints what `ax` points to. -/
theorem Comes.print {m : Machine} {bytes : Array UInt8} {i j : Nat}
    (hb : P.Block i [.movReg .dx .ax, .dosCall .printString] j) (hm : m.memory.Carries P) (hip : m.ip = P.addr i)
    (hp : Machine.printed m.memory 65536 m.regs.ax #[] = some bytes) :
    Comes m fun m' => ∃ m₀, m.Alike m₀ ∧ m₀.ip = P.addr j ∧ m' = { m₀ with output := m.output ++ bytes } := by
  refine Comes.exec hb hm hip rfl rfl fun hb => ?_
  obtain ⟨hh, hb⟩ : P.Holds (i + 2) (Instr.dosCall .printString).encode ∧ P.Block (i + 2 + 4) [] j := hb.cons
  obtain ⟨first, second⟩ := Machine.step_of_dosCall (m := { m with ip := P.addr (i + 2) }.set .dx m.regs.ax) hm hh rfl
  have hnumber := Word.high_ofBytes (Word.low m.regs.ax) DosFunction.printString.number
  generalize hax : Word.ofBytes (Word.low m.regs.ax) DosFunction.printString.number = ax at hnumber
  have written := (second { m with ip := P.addr (i + 2 + 2), regs := { m.regs with dx := m.regs.ax, ax } } hm rfl).trans
    (Machine.dos_print hnumber rfl rfl hp)
  refine Comes.step (first.trans ?_) (Comes.step written (Comes.here
    ⟨{ m with ip := P.addr (i + 2 + 4), regs := { m.regs with dx := m.regs.ax, ax } }, ⟨rfl, rfl, rfl, rfl, rfl⟩,
      congrArg P.addr hb.nil, rfl⟩))
  rw [← hax]
  rfl

theorem Reaches.print {frame : Frame} {m : Machine} {s : Activation} {text : String} {i j : Nat}
    (hb : P.Block i [.movReg .dx .ax, .dosCall .printString] j) (hP : P.Sits) (hm : Models P frame m s)
    (hip : m.ip = P.addr i) (hv : (Value.text text).Matches P m.regs.ax) :
    Reaches P m fun m' => m'.ip = P.addr j ∧ Models P frame m' (s.print text) ∧ Keeps frame 0 m m' := by
  obtain ⟨hchars, pos, hpos, haddr⟩ := hv
  have short : (charBytes text).length < 65536 := by
    have inside := hpos.le
    have segment : P.base.toNat + P.image.length ≤ 65536 := hP.segment
    rw [List.length_append, List.length_singleton] at inside
    omega
  have bytes := printed_of_shows (hm.code.shows hpos) short #[]
  rw [← haddr] at bytes
  refine (Reaches.of_comes (Comes.print hb hm.code hip bytes)).mono ?_
  rintro m' ⟨m₀, alike, ip, rfl⟩
  have kept : Keeps frame 0 m m₀ := alike.keeps
  exact ⟨ip, hm.print alike hchars, kept.sp, kept.bp, kept.memory⟩

/-! ## Calls -/

/-- The state of a machine that has come back from a call. -/
structure Machine.Back (P : Placement) (m m' : Machine) : Prop where
  ip : m'.ip = m.top
  sp : m'.regs.sp.toNat = m.regs.sp.toNat + 2
  bp : m'.regs.bp = m.regs.bp
  memory : ∀ a : UInt16, m.regs.sp.toNat + 2 ≤ a.toNat → m'.memory.read a = m.memory.read a
  code : m'.memory.Carries P

/-- Functions do what `call` says: from its first byte, with the return address on the stack, a
    function comes back with its value in `ax`. -/
def Realizes (P : Placement) (call : CallMeaning) : Prop :=
  ∀ {name start trace v trace' m}, (name, start) ∈ P.starts → call name trace = some (v, trace') →
    m.ip = P.addr start → m.memory.Carries P → P.stop ≤ m.regs.sp.toNat → m.regs.sp.toNat + 2 < 65536 →
    m.Traced P trace →
    Reaches P m fun m' => m.Back P m' ∧ m'.Traced P trace' ∧ v.Matches P m'.regs.ax

/-- The caller finds its variables again. -/
theorem Models.back {frame : Frame} {m m' m'' : Machine} {s : Activation} {trace : Trace} (h : Models P frame m s)
    (hs : frame.Sound) (hk : Keeps frame 2 m m') (hm' : Models P frame m' s) (hb : m'.Back P m'')
    (ht : m''.Traced P trace) :
    Models P frame m'' { s with trace } ∧ Keeps frame 0 m m'' := by
  have hsp : m''.regs.sp.toNat = m.regs.sp.toNat := hb.sp.trans hk.sp
  have hbp : m''.regs.bp = m.regs.bp := hb.bp.trans hk.bp
  have kept : ∀ a : UInt16, m.regs.sp.toNat ≤ a.toNat → m''.memory.read a = m'.memory.read a := fun a ha =>
    hb.memory a (hk.sp ▸ ha)
  have hlow := hk.sp
  refine ⟨⟨hb.code, hsp ▸ h.room, ?_, ?_, ht⟩, ⟨hsp, hbp, fun a ha hr => (kept a ha).trans (hk.memory a ha hr)⟩⟩
  · rw [hsp, hbp]
    exact h.below
  · intro name offset v ho hv
    obtain ⟨-, hslot, -, hup⟩ := h.slot hs ho
    have hlt := m.regs.bp.toNat_lt
    rw [hbp, Memory.readWord_of_kept kept hslot (by omega), ← hk.bp]
    exact hm'.locals ho hv

/-! ## Arguments -/

/-- The arguments of a placed call are few enough to be taken off in one go. -/
theorem argBytes_of_at {frame : Frame} {args : List Expr} {i j : Nat} (h : argsAt P frame i args j) (hP : P.Sits)
    (hj : j ≤ P.image.length) : (argBytes args.length).toUInt16.toNat = 2 * args.length := by
  have := argsAt_le h
  have := hP.base
  have segment : P.base.toNat + P.image.length ≤ 65536 := hP.segment
  rw [argBytes, if_pos (by omega)]
  show (UInt16.ofNat (2 * args.length)).toNat = _
  exact UInt16.toNat_ofNat_of_lt' (by show _ < 65536; omega)

/-! ## Running expressions -/

theorem BinaryOp.words_of_onValues {op : BinaryOp} {v w u : Value} (h : op.onValues v w = some u) :
    ∃ a b c, v = .word a ∧ w = .word b ∧ u = .word c ∧ op.onWords a b = some c := by
  cases v with
  | word a =>
    cases w with
    | word b =>
      obtain ⟨c, hc, rfl⟩ := Option.map_eq_some_iff.1 h
      exact ⟨a, b, c, rfl, rfl, rfl, hc⟩
    | text _ | unknown => exact nomatch h
  | text _ | unknown => exact nomatch h

/-- A state behind the code of an expression, with its value in `ax`. -/
structure Yields (P : Placement) (frame : Frame) (m : Machine) (j : Nat) (v : Value) (s : Activation)
    (m' : Machine) : Prop where
  ip : m'.ip = P.addr j
  models : Models P frame m' s
  keeps : Keeps frame 0 m m'
  value : v.Matches P m'.regs.ax

/-- The right operand of an operator goes to `bx`, and `ax` keeps the left one. -/
structure YieldsRight (P : Placement) (frame : Frame) (m : Machine) (j : Nat) (v : Value) (s : Activation)
    (m' : Machine) :
    Prop where
  ip : m'.ip = P.addr j
  models : Models P frame m' s
  keeps : Keeps frame 0 m m'
  left : m'.regs.ax = m.regs.ax
  value : v.Matches P m'.regs.bx

section

variable {call : CallMeaning} {frame : Frame} {known : List String}

theorem Expr.reachesRight (hP : P.Sits) (hs : frame.Sound) {e : Expr} {i j : Nat} {m : Machine}
    {s s' : Activation} {v : Value}
    (he : ∀ {i j m}, e.At P frame i j → Models P frame m s → m.ip = P.addr i → Reaches P m (Yields P frame m j v s'))
    (hat : e.RightAt P frame i j) (hw : e.WellFormed frame known) (hm : Models P frame m s) (hip : m.ip = P.addr i)
    (hv : e.eval call s = some (v, s')) : Reaches P m (YieldsRight P frame m j v s') := by
  unfold Expr.RightAt at hat
  cases hleaf : e.leaf? with
  | some leaf =>
    rw [hleaf] at hat
    rw [Expr.eval_of_leaf hleaf, Option.map_eq_some_iff] at hv
    obtain ⟨v, hv, he⟩ := hv
    cases he
    rw [Expr.wellFormed_of_leaf hleaf] at hw
    refine (Leaf.reaches hat hw hm hip hv).mono ?_
    rintro m' ⟨w, hw, rfl⟩
    exact ⟨rfl, hm.alike ⟨rfl, rfl, rfl, rfl, rfl⟩, ⟨rfl, rfl, fun _ _ _ => rfl⟩, rfl, hw⟩
  | none =>
    rw [hleaf] at hat
    obtain ⟨k, l, hpush, hoperand, hmove⟩ := hat
    refine Reaches.exec hpush hm.code hip rfl rfl fun hb => Reaches.above fun room => ?_
    obtain ⟨pushed, kept, htop⟩ := hm.push hs hP room rfl rfl rfl rfl rfl
    have hsp := kept.sp
    have hbelow := hm.below
    refine (he hoperand pushed (congrArg P.addr hb.nil)).bind fun m' h => ?_
    refine Reaches.exec hmove h.models.code h.ip rfl rfl fun hb => ?_
    refine Reaches.exec hb h.models.code rfl rfl rfl fun hb => Reaches.here ?_
    have kept' : Keeps frame 2 m m' := kept.trans h.keeps
    have hdrop : (m'.regs.sp + 2).toNat = m'.regs.sp.toNat + 2 := Word.toNat_add kept'.sp m.regs.sp.toNat_lt
    have htop' := h.keeps.top (by
      show _ + 2 + _ ≤ m.regs.bp.toNat
      omega)
    exact ⟨congrArg P.addr hb.nil, h.models.release hm kept' hdrop rfl rfl rfl rfl, kept'.release hdrop rfl rfl,
      htop'.trans htop, h.value⟩

theorem Leaf.yields (leaf : Leaf) {e : Expr} {i j : Nat} {m : Machine} {s s' : Activation} {v : Value}
    (he : e.leaf? = some leaf) (hat : leaf.At P frame .ax i j) (hw : leaf.WellFormed frame) (hm : Models P frame m s)
    (hip : m.ip = P.addr i) (hv : e.eval call s = some (v, s')) : Reaches P m (Yields P frame m j v s') := by
  rw [Expr.eval_of_leaf he, Option.map_eq_some_iff] at hv
  obtain ⟨v, hv, heq⟩ := hv
  cases heq
  refine (Leaf.reaches hat hw hm hip hv).mono fun m' h => ?_
  obtain ⟨w, hw, rfl⟩ := h
  exact ⟨rfl, hm.alike ⟨rfl, rfl, rfl, rfl, rfl⟩, ⟨rfl, rfl, fun _ _ _ => rfl⟩, hw⟩

/-- A call, once the arguments are on the stack. -/
theorem reaches_call (hP : P.Sits) (hc : Realizes P call) (hs : frame.Sound) {name : String} {n i j : Nat}
    {bytes : Int16} {address : UInt16} {m₀ m : Machine} {s₀ s : Activation} {v : Value} {trace : Trace}
    (hb : P.Block i [.movImm .ax address, .callReg .ax, .addImm .sp bytes] j) (hn : bytes.toUInt16.toNat = n)
    (ha : P.Calls address name) (h₀ : Models P frame m₀ s₀) (hk : Keeps frame n m₀ m) (hm : Models P frame m s)
    (hip : m.ip = P.addr i) (hv : call name s.trace = some (v, trace)) :
    Reaches P m (Yields P frame m₀ j v { s with trace }) := by
  obtain ⟨start, hstart, haddress⟩ := ha
  refine Reaches.exec hb hm.code hip rfl rfl fun hb => ?_
  refine Reaches.exec hb hm.code rfl rfl rfl fun hb => Reaches.above fun room => ?_
  obtain ⟨pushed, kept, htop⟩ := hm.push hs hP room rfl rfl rfl rfl rfl
  have hsp := kept.sp
  have below := hm.below
  have hlt := m.regs.bp.toNat_lt
  refine (hc hstart hv haddress.eq_addr pushed.code room (by omega) pushed.traced).bind fun m' h => ?_
  obtain ⟨back, traced, value⟩ := h
  obtain ⟨models, keeps⟩ := hm.back hs kept pushed back traced
  have keeps' : Keeps frame n m₀ m' := hk.trans keeps
  refine Reaches.exec hb models.code (back.ip.trans htop) rfl rfl fun hb => Reaches.here ?_
  have hraise : (m'.regs.sp + bytes.toUInt16).toNat = m'.regs.sp.toNat + n := by
    rw [← hn] at keeps' ⊢
    exact Word.toNat_add keeps'.sp m₀.regs.sp.toNat_lt
  exact ⟨congrArg P.addr hb.nil, models.release h₀ keeps' hraise rfl rfl rfl rfl, keeps'.release hraise rfl rfl, value⟩

mutual

/-- From a state that models an activation, the code of an expression comes to one that models the
    activation after it. -/
theorem Expr.reaches (hP : P.Sits) (hc : Realizes P call) (hs : frame.Sound) {e : Expr} {i j : Nat} {m : Machine}
    {s s' : Activation} {v : Value} (hat : e.At P frame i j)
    (hw : e.WellFormed frame known) (hm : Models P frame m s) (hip : m.ip = P.addr i)
    (hv : e.eval call s = some (v, s')) : Reaches P m (Yields P frame m j v s') := by
  match e with
  | .ident name => exact Leaf.yields (.var name) rfl hat hw hm hip hv
  | .int value => exact Leaf.yields (.int value) rfl hat hw hm hip hv
  | .str text => exact Leaf.yields (.str text) rfl hat hw hm hip hv
  | .call name args =>
    rw [Expr.At.eq_def] at hat
    rw [Expr.eval.eq_def] at hv
    dsimp only at hat hv
    split at hat
    · rename_i hputs
      rw [if_pos hputs] at hv
      match args with
      | [message] =>
        obtain ⟨k, hmessage, hb⟩ := hat
        dsimp only at hv
        split at hv
        · rename_i text s₁ he
          cases hv
          refine (Expr.reaches hP hc hs hmessage hw.2.1 hm hip he).bind fun m₁ h => ?_
          refine (Reaches.print hb hP h.models h.ip h.value).mono fun m₂ h₂ => ?_
          exact ⟨h₂.1, h₂.2.1, h.keeps.trans h₂.2.2, trivial⟩
        · exact nomatch hv
      | [] | _ :: _ :: _ => exact hat.elim
    · rename_i hputs
      rw [if_neg hputs] at hv
      obtain ⟨k, address, hargs, hb, hcalls⟩ := hat
      split at hv
      · rename_i s₁ he
        rw [Option.map_eq_some_iff] at hv
        obtain ⟨⟨v, trace⟩, hv, heq⟩ := hv
        cases heq
        have hn := argBytes_of_at hargs hP (Nat.le_trans (Nat.le_add_right _ _) hb.1.le)
        refine (args_reach hP hc hs hargs hw.2 hm hip he).bind fun m₁ h => ?_
        exact reaches_call hP hc hs hb hn hcalls hm h.2.2 h.2.1 h.1 hv
      · exact nomatch hv
  | .assign target value =>
    obtain ⟨k, hvalue, hb⟩ := hat
    obtain ⟨htarget, hw⟩ := hw
    obtain ⟨offset, ho⟩ := Frame.contains_iff.1 htarget
    rw [Expr.eval, Option.map_eq_some_iff] at hv
    obtain ⟨⟨v, s₁⟩, hv, heq⟩ := hv
    cases heq
    refine (Expr.reaches hP hc hs hvalue hw hm hip hv).bind fun m₁ h => ?_
    refine Reaches.exec hb h.models.code h.ip rfl rfl fun hb => Reaches.here ?_
    have alike (ip : UInt16) : (m₁.store (m₁.regs.bp - offset) m₁.regs.ax).Alike
        ({ m₁ with ip }.store (m₁.regs.bp + (frame.disp target).toUInt16) m₁.regs.ax) :=
      ⟨congrArg (m₁.memory.writeWord · m₁.regs.ax) (Frame.bp_add_disp ho _), rfl, rfl, rfl, rfl⟩
    exact ⟨congrArg P.addr hb.nil, (h.models.assign hs hP ho h.value).alike (alike _),
      (h.keeps.trans (keeps_store h.models hs ho _)).trans (alike _).keeps, h.value⟩
  | .chain operands operators =>
    obtain ⟨-, -, hw⟩ := hw
    match operands with
    | [] => exact hat.elim
    | first :: rest =>
      obtain ⟨k, hfirst, hrest⟩ := hat
      rw [Expr.eval.eq_def] at hv
      dsimp only at hv
      split at hv
      · rename_i w s₁ he
        refine (Expr.reaches hP hc hs hfirst hw.1 hm hip he).bind fun m₁ h => ?_
        refine (tail_reaches hP hc hs hrest hw.2 h.models h.ip h.value hv).mono fun m₂ h₂ => ?_
        exact ⟨h₂.ip, h₂.models, h.keeps.trans h₂.keeps, h₂.value⟩
      · exact nomatch hv

/-- Each argument leaves a word on the stack. -/
theorem args_reach (hP : P.Sits) (hc : Realizes P call) (hs : frame.Sound) {args : List Expr} {i j : Nat}
    {m : Machine} {s s' : Activation} (hat : argsAt P frame i args j)
    (hw : allWellFormed frame known args) (hm : Models P frame m s) (hip : m.ip = P.addr i)
    (hv : evalArgs call args s = some s') :
    Reaches P m fun m' => m'.ip = P.addr j ∧ Models P frame m' s' ∧ Keeps frame (2 * args.length) m m' := by
  match args with
  | [] =>
    cases hv
    exact Reaches.here ⟨hip.trans (congrArg P.addr hat), hm, rfl, rfl, fun _ _ _ => rfl⟩
  | arg :: args =>
    obtain ⟨k, l, hargs, harg, hb⟩ := hat
    rw [evalArgs] at hv
    split at hv
    · rename_i s₁ he
      rw [Option.map_eq_some_iff] at hv
      obtain ⟨⟨v, s₂⟩, hv, heq⟩ := hv
      cases heq
      refine (args_reach hP hc hs hargs hw.2 hm hip he).bind fun m₁ h => ?_
      refine (Expr.reaches hP hc hs harg hw.1 h.2.1 h.1 hv).bind fun m₂ h₂ => ?_
      refine Reaches.exec hb h₂.models.code h₂.ip rfl rfl fun hb => Reaches.above fun room => Reaches.here ?_
      obtain ⟨pushed, kept, -⟩ := h₂.models.push hs hP room rfl rfl rfl rfl rfl
      exact ⟨congrArg P.addr hb.nil, pushed, h.2.2.trans (h₂.keeps.trans kept)⟩
    · exact nomatch hv

/-- The operators of a chain, with the value so far in `ax`. -/
theorem tail_reaches (hP : P.Sits) (hc : Realizes P call) (hs : frame.Sound) {ops : List BinaryOp}
    {operands : List Expr} {i j : Nat} {m : Machine} {s s' : Activation}
    {v v' : Value} (hat : tailAt P frame i ops operands j) (hw : allWellFormed frame known operands)
    (hm : Models P frame m s) (hip : m.ip = P.addr i) (hl : v.Matches P m.regs.ax)
    (hv : evalTail call v ops operands s = some (v', s')) : Reaches P m (Yields P frame m j v' s') := by
  match ops, operands with
  | [], [] =>
    cases hv
    exact Reaches.here ⟨hip.trans (congrArg P.addr hat), hm, ⟨rfl, rfl, fun _ _ _ => rfl⟩, hl⟩
  | [], _ :: _ | _ :: _, [] => exact hat.elim
  | op :: ops, operand :: operands =>
    obtain ⟨k, l, hright, ⟨-, hop⟩, hrest⟩ := hat
    rw [evalTail] at hv
    split at hv
    · rename_i w s₁ he
      split at hv
      · rename_i v₁ ho
        refine (Expr.reachesRight hP hs
          (fun hat hm hip => Expr.reaches hP hc hs hat hw.1 hm hip he) hright hw.1 hm hip he).bind
          fun m₁ h => ?_
        obtain ⟨a, b, c, rfl, rfl, rfl, hword⟩ := BinaryOp.words_of_onValues ho
        rw [← show m.regs.ax = a from hl, ← h.left, ← show m₁.regs.bx = b from h.value] at hword
        refine (reaches_operator hop h.models.code h.ip hword).bind fun m₂ h₂ => ?_
        obtain ⟨hip, alike, value⟩ := h₂
        refine (tail_reaches hP hc hs (v := .word c) hrest hw.2 (h.models.alike alike) hip value hv).mono
          fun m₃ h₃ => ?_
        exact ⟨h₃.ip, h₃.models, (h.keeps.trans alike.keeps).trans h₃.keeps, h₃.value⟩
      · exact nomatch hv
    · exact nomatch hv

end

end

end DotCom
