/-
  DotCom.Proofs.Simulation.Literals — strings that stand in the code, and the code that prints them. A
  string may be as long as the segment allows. It may hold sentinels and zero bytes, and no frame need be open.

  - `jumpsOver_jumpOver`: the jump over a string takes two bytes where a signed byte reaches behind it,
    and three elsewhere. The displacement of a long one is a word without a sign.
  - `comes_puts`: the code of `puts` writes the bytes up to the first sentinel and changes no memory.
  - `literal_prints`: lowering lays down that code, or names the first character that is not a byte.
-/

import DotCom.Proofs.Simulation.Fragments

namespace DotCom

/-! ## The bytes of a string -/

/-- A jump over `n` bytes, short where one signed byte is enough. -/
def Instr.JumpsOver (n : Nat) : Instr → Prop
  | .jmpShort rel => n ≤ 127 ∧ rel.toInt = n
  | .jmpNear rel => 127 < n ∧ rel.toNat = n
  | _ => False

theorem jumpsOver_jumpOver {n : Nat} (h : n ≤ 65535) : (jumpOver n).JumpsOver n := by
  unfold jumpOver
  split
  · rename_i short
    exact ⟨short, Int8.toInt_ofNat_of_lt (Nat.lt_succ_of_le short)⟩
  · rename_i long
    exact ⟨Nat.lt_of_not_le long, UInt16.toNat_ofNat_of_lt' (Nat.lt_succ_of_le h)⟩

/-- What a string of `n` characters takes: a jump, its bytes and the sentinel, and the load of its address. -/
def literalSize (n : Nat) : Nat := (if n ≤ 126 then 2 else 3) + (n + 1) + 3

theorem Leaf.size_str (text : String) (frame : Frame) (dst : Reg) :
    (Leaf.str text).size frame dst = literalSize text.length := by
  have jump : (jumpOver (text.length + 1)).size = if text.length ≤ 126 then 2 else 3 := by
    unfold jumpOver
    by_cases h : text.length ≤ 126
    · rw [if_pos h, if_pos (Nat.succ_le_succ h)]
      rfl
    · rw [if_neg h, if_neg (fun h' => h (Nat.le_of_succ_le_succ h'))]
      rfl
  rw [Leaf.size, jump]
  rfl

variable {P : Placement} {link : Link} {frame : Frame} {m : Machine} {g g' : Generator} {text : String}

/-! ## Printing a string -/

/-- The bytes of a text that `puts` writes. -/
def shownBytes (text : String) : List UInt8 := (text.toList.takeWhile (· ≠ '$')).map fun c => UInt8.ofNat c.toNat

theorem comes_puts {i pos : Nat} (small : P.image.length ≤ 65536) (hchars : ∀ c ∈ text.toList, c.toNat ≤ 255)
    (hh : P.Holds i ((Expr.call puts [.str text]).code link frame pos)) (ha : link.addr pos = P.addr i)
    (hm : m.memory.Carries P) (hip : m.ip = P.addr i) :
    Comes m fun m' => m'.ip = P.addr (i + (literalSize text.length + 6)) ∧
      m'.output.toList = m.output.toList ++ shownBytes text ∧ m'.memory = m.memory ∧ m'.regs.sp = m.regs.sp ∧
      m'.regs.bp = m.regs.bp := by
  have code : (Expr.call puts [.str text]).code link frame pos =
      (Leaf.str text).code link frame .ax pos ++ encodeAll [.movReg .dx .ax, .dosCall .printString] := by
    simp [Expr.code]
  rw [code] at hh
  obtain ⟨hstr, hprint⟩ := Placement.Holds.append hh
  obtain ⟨-, htext, -⟩ := Leaf.holds_str hstr
  have short : (charBytes text).length < 65536 := by
    have inside := htext.le
    rw [List.length_append, List.length_singleton] at inside
    omega
  have bytes := printed_of_shows (hm.shows htext) short #[]
  rw [P.addr_add, takeWhile_charBytes hchars] at bytes
  rw [Leaf.length_code] at hprint
  refine (comes_literal small hstr ha hm hip).bind ?_
  rintro m₁ rfl
  refine Comes.mono (Comes.print (hprint.block rfl) hm rfl bytes) ?_
  rintro m' ⟨m₂, alike, ip, rfl⟩
  refine ⟨?_, ?_, alike.memory, alike.sp, alike.bp⟩
  · rw [ip, Leaf.size_str]
    rfl
  · simp only [Array.toList_append, Array.toList_appendList, List.nil_append]
    rfl

/-! ## Lowering -/

/-- A string that has room is laid down behind a jump over it. -/
theorem Gen.loadString_eq_ok (layout : g.image.loadBase.toNat + g.image.capacity ≤ segmentSize)
    (hchars : ∀ c ∈ text.toList, c.toNat ≤ 255) (room : g.Fits (literalSize text.length)) (dst : Reg) :
    ∃ (jump : Instr) (address : UInt16) (events : Array Event), jump.JumpsOver (text.length + 1) ∧
      address.toNat = g.image.loadBase.toNat + g.image.size + jump.size ∧
      loadString dst text g = .ok () { g.extend (jump.encode ++ (charBytes text ++ [DosFunction.sentinel]) ++
        (Instr.movImm dst address).encode) g.frames with events } := by
  have segment : g.image.capacity ≤ segmentSize := Nat.le_trans (Nat.le_add_left _ _) layout
  have emits := emits_loadString segment { function := "" } dst text
  rw [← Leaf.size_str text { function := "" } dst, ← Leaf.length_code] at room
  obtain ⟨events, run⟩ := (emits g.events).1 ⟨hchars, room⟩
  rw [Leaf.length_code, Generator.Fits, Leaf.size, Instr.size_movImm] at room
  have : segmentSize = 65536 := rfl
  refine ⟨_, _, events, jumpsOver_jumpOver (by omega), ?_, run⟩
  rw [Link.addr, UInt16.toNat_add, UInt16.toNat_ofNat']
  show (g.image.loadBase.toNat + _) % 65536 = _
  omega

theorem emits_puts_str (segment : g.image.capacity ≤ segmentSize) (frame : Frame) (text : String) :
    Emits (Expr.call puts [.str text]).lower g ((Leaf.str text).WellFormed frame) ()
      ((Expr.call puts [.str text]).code g.link frame g.image.size) g.frames :=
  Expr.emits_puts (Gen.emits_loadString segment frame .ax text)

theorem length_code_puts (text : String) (pos : Nat) :
    ((Expr.call puts [.str text]).code link frame pos).length = literalSize text.length + 6 := by
  rw [Expr.length_code, ← Leaf.size_str text frame .ax]
  rfl

/-- Lowering `puts` succeeds where the code has room. -/
theorem lower_puts_eq_ok (segment : g.image.capacity ≤ segmentSize) (hchars : ∀ c ∈ text.toList, c.toNat ≤ 255)
    (room : g.Fits (literalSize text.length + 6)) : ∃ g', (Expr.call puts [.str text]).lower g = .ok () g' := by
  have emits := emits_puts_str segment { function := "" } text
  rw [← length_code_puts] at room
  obtain ⟨events, run⟩ := (emits g.events).1 ⟨hchars, room⟩
  exact ⟨_, run⟩

/-- The code that lowering `puts` has appended, where it will be loaded. -/
theorem lower_puts_comes (segment : g.image.capacity ≤ segmentSize) (hchars : ∀ c ∈ text.toList, c.toNat ≤ 255)
    (accepted : (Expr.call puts [.str text]).lower g = .ok () g') (hm : m.memory.Carries (g.appended g'))
    (hip : m.ip = g.image.address) :
    Comes m fun m' => m'.ip = g'.image.address ∧ m'.output.toList = m.output.toList ++ shownBytes text ∧
      m'.memory = m.memory ∧ m'.regs.sp = m.regs.sp ∧ m'.regs.bp = m.regs.bp := by
  obtain ⟨-, fits, same, address⟩ := (emits_puts_str segment { function := "" } text).appended accepted
  rw [same] at hm
  generalize hcode : (Expr.call puts [.str text]).code g.link _ g.image.size = code at hm fits address
  generalize hP : (⟨code, g.image.address, []⟩ : Placement) = P at hm
  have hh : P.Holds 0 code := ⟨[], [], by rw [← hP]; simp, rfl⟩
  have start : P.addr 0 = g.image.address := by
    rw [← hP]
    exact UInt16.add_zero _
  have small : P.image.length ≤ 65536 := by
    rw [← hP]
    have : g.image.capacity ≤ 65536 := segment
    rw [Generator.Fits] at fits
    show code.length ≤ 65536
    omega
  rw [← hcode] at hh address
  rw [length_code_puts] at address
  refine (comes_puts small hchars hh start.symm hm (hip.trans start.symm)).mono fun m' h => ?_
  rw [P.addr_add, start, ← address] at h
  exact h

section

variable {before after : List Char} {c : Char} (split : text.toList = before ++ c :: after)
  (hbefore : ∀ d ∈ before, d.toNat ≤ 255) (hc : 255 < c.toNat)
include split hbefore hc

theorem Gen.loadString_eq_error (dst : Reg) (g : Generator) :
    loadString dst text g = .error (.rejected (.unencodableCharacter c)) g := by
  unfold loadString
  rw [split, latin1_append_cons hbefore hc]
  rfl

theorem lower_puts_eq_error (g : Generator) :
    (Expr.call puts [.str text]).lower g = .error (.rejected (.unencodableCharacter c)) g := by
  show EStateM.bind (Gen.loadString .ax text) _ g = _
  rw [EStateM.bind, Gen.loadString_eq_error split hbefore hc]

end

/-- A string of bytes that has room is laid down behind a jump over it and its sentinel, and the address of
    its first byte is loaded. The code of `puts` comes to its end with the bytes before the first sentinel
    written, and with memory and both stack registers as they were. A string with a character that is no
    byte is refused for the first such character, and nothing is laid down. -/
theorem literal_prints (text : String) {g : Generator}
    (layout : g.image.loadBase.toNat + g.image.capacity ≤ segmentSize) :
    ((∀ c ∈ text.toList, c.toNat ≤ 255) →
      (g.Fits (literalSize text.length) → ∀ dst : Reg,
        ∃ (jump : Instr) (address : UInt16) (events : Array Event), jump.JumpsOver (text.length + 1) ∧
          address.toNat = g.image.loadBase.toNat + g.image.size + jump.size ∧
          Gen.loadString dst text g = .ok () { g.extend (jump.encode ++ (charBytes text ++ [DosFunction.sentinel]) ++
            (Instr.movImm dst address).encode) g.frames with events }) ∧
      (g.Fits (literalSize text.length + 6) → ∃ g', (Expr.call puts [.str text]).lower g = .ok () g') ∧
      ∀ (g' : Generator) (m : Machine), (Expr.call puts [.str text]).lower g = .ok () g' →
        m.memory.Carries (g.appended g') → m.ip = g.image.address →
        Comes m fun m' => m'.ip = g'.image.address ∧ m'.output.toList = m.output.toList ++ shownBytes text ∧
          m'.memory = m.memory ∧ m'.regs.sp = m.regs.sp ∧ m'.regs.bp = m.regs.bp) ∧
    ∀ before c after, text.toList = before ++ c :: after → (∀ d ∈ before, d.toNat ≤ 255) → 255 < c.toNat →
      (∀ dst, Gen.loadString dst text g = .error (.rejected (.unencodableCharacter c)) g) ∧
        (Expr.call puts [.str text]).lower g = .error (.rejected (.unencodableCharacter c)) g := by
  have segment : g.image.capacity ≤ segmentSize := Nat.le_trans (Nat.le_add_left _ _) layout
  refine ⟨fun hchars => ⟨fun room dst => Gen.loadString_eq_ok layout hchars room dst, lower_puts_eq_ok segment hchars,
    fun g' m accepted hm hip => lower_puts_comes segment hchars accepted hm hip⟩, ?_⟩
  intro before c after split hbefore hc
  exact ⟨fun dst => Gen.loadString_eq_error split hbefore hc dst g, lower_puts_eq_error split hbefore hc g⟩

/-- More bytes than a signed word counts, and a sentinel among them. -/
theorem literal_prints_past_sign :
    let text := String.ofList (List.replicate 32768 'é' ++ ['$', 'x'])
    let g : Generator := { image := ⟨#[], 0x100, 0xff00⟩ }
    (∃ (rel address : UInt16) (g' : Generator), rel.toNat = 32771 ∧ address.toNat = 0x103 ∧
      Gen.loadString .bx text g = .ok () g' ∧ g'.image.bytes.toList = (Instr.jmpNear rel).encode ++
        (charBytes text ++ [DosFunction.sentinel]) ++ (Instr.movImm .bx address).encode) ∧
    (∃ g' m, (Expr.call puts [.str text]).lower g = .ok () g' ∧ m.memory.Carries (g.appended g') ∧ m.ip = 0x100 ∧
      Comes m fun m' => m'.output.toList = m.output.toList ++ List.replicate 32768 0xe9 ∧ m'.memory = m.memory) ∧
    Gen.loadString .ax "é→é" g = .error (.rejected (.unencodableCharacter '→')) g := by
  have length (n : Nat) : (String.ofList (List.replicate n 'é' ++ ['$', 'x'])).length = n + 2 := by
    rw [String.length_ofList, List.length_append, List.length_replicate]
    rfl
  have chars (n : Nat) : ∀ c ∈ (String.ofList (List.replicate n 'é' ++ ['$', 'x'])).toList, c.toNat ≤ 255 := by
    intro c hc
    rw [String.toList_ofList, List.mem_append] at hc
    rcases hc with hc | hc
    · rw [List.eq_of_mem_replicate hc]
      decide
    · simp only [List.mem_cons, List.not_mem_nil, or_false] at hc
      rcases hc with rfl | rfl <;> decide
  have shown (n : Nat) : shownBytes (String.ofList (List.replicate n 'é' ++ ['$', 'x'])) = List.replicate n 0xe9 := by
    rw [shownBytes, String.toList_ofList, List.takeWhile_append_of_pos (by simp)]
    simp
  intro text g
  have layout : g.image.loadBase.toNat + g.image.capacity ≤ segmentSize := by decide
  have segment : g.image.capacity ≤ segmentSize := by decide
  have count : text.length = 32770 := length 32768
  have size : literalSize text.length = 32777 := by simp [count, literalSize]
  have room : g.Fits (literalSize text.length + 6) := by
    show 0 + (literalSize text.length + 6) ≤ 0xff00
    omega
  obtain ⟨lays, succeeds, prints⟩ := (literal_prints text layout).1 (chars _)
  refine ⟨?_, ?_, ((literal_prints "é→é" layout).2 ['é'] '→' ['é'] (by decide) (by simp) (by decide)).1 .ax⟩
  · have less : g.Fits (literalSize text.length) := Nat.le_trans (Nat.add_le_add_left (Nat.le_add_right _ 6) _) room
    obtain ⟨jump, address, events, jumps, first, run⟩ := lays less .bx
    rw [count] at jumps
    cases jump with
    | jmpNear rel => exact ⟨rel, address, _, jumps.2, first, run, Array.toList_appendList.trans (List.nil_append _)⟩
    | jmpShort rel => exact absurd jumps.1 (by decide)
    | _ => exact jumps.elim
  · obtain ⟨g', accepted⟩ := succeeds room
    have appended := (emits_puts_str segment { function := "" } text).appended accepted
    have inside : (g.appended g').base.toNat + (g.appended g').image.length ≤ segmentSize := by
      rw [appended.2.2.1, length_code_puts, size]
      show 0x100 + (32777 + 6) ≤ 0x10000
      omega
    have carried := Memory.Carries.ofBytes (P := g.appended g') (List.toList_toArray ..).symm rfl inside
    generalize Memory.ofBytes _ _ = memory at carried
    refine ⟨g', { memory, regs := {}, ip := 0x100 }, accepted, carried, rfl, ?_⟩
    rw [← shown]
    exact (prints g' _ accepted carried rfl).mono fun m' h => ⟨h.2.1, h.2.2.1⟩

end DotCom
