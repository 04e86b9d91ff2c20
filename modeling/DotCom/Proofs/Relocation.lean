/-
  DotCom.Proofs.Relocation — one program loaded at different addresses. Its image is made of parts
  that do not depend on where it is loaded, and of addresses of its own offsets, one word each
  (`Relocatable`). So two images of a program differ in these words only, and there by the
  difference of their bases; a program that is refused is refused for the same reason everywhere.

  - `Function.relocatable`: the code of a function is relocatable if what it calls is placed.
  - `Program.compile_relocates`: the images of a program are instances of one template.
-/

import DotCom.Proofs.Lowering.Pairs
import DotCom.Proofs.Placement

namespace DotCom

/-! ## Templates -/

/-- A part of an image. -/
inductive Part where
  | bytes (bs : List UInt8)
  /-- The loaded address of an offset. -/
  | address (target : Nat)

def Part.loaded (base : UInt16) : Part → List UInt8
  | bytes bs => bs
  | address target => Word.bytes (base + UInt16.ofNat target)

/-- The bytes of parts in an image that is loaded at `base`. -/
def loaded (base : UInt16) (parts : List Part) : List UInt8 := parts.flatMap (Part.loaded base)

/-- Two bytes of an image that hold the loaded address of an offset. -/
structure Site where
  offset : Nat
  target : Nat

def Site.Covers (s : Site) (k : Nat) : Prop := s.offset ≤ k ∧ k < s.offset + 2

/-- The sites of parts that stand from `pos` on. -/
def sitesFrom (pos : Nat) : List Part → List Site
  | [] => []
  | .bytes bs :: parts => sitesFrom (pos + bs.length) parts
  | .address target :: parts => ⟨pos, target⟩ :: sitesFrom (pos + 2) parts

/-- The number in two bytes of an image, the low one first. -/
def wordAt (image : List UInt8) (k : Nat) : Option Nat := do
  let low ← image[k]?
  let high ← image[k + 1]?
  return low.toNat + 256 * high.toNat

theorem loaded_cons (base : UInt16) (part : Part) (parts : List Part) :
    loaded base (part :: parts) = part.loaded base ++ loaded base parts := rfl

theorem loaded_append (base : UInt16) (parts parts' : List Part) :
    loaded base (parts ++ parts') = loaded base parts ++ loaded base parts' := List.flatMap_append

theorem le_length_of_wordAt {image : List UInt8} {k n : Nat} (h : wordAt image k = some n) : k + 2 ≤ image.length := by
  obtain ⟨low, -, h⟩ := Option.bind_eq_some_iff.1 h
  obtain ⟨high, hk, -⟩ := Option.bind_eq_some_iff.1 h
  obtain ⟨inside, -⟩ := List.getElem?_eq_some_iff.1 hk
  exact inside

theorem wordAt_append (front image : List UInt8) (k : Nat) :
    wordAt (front ++ image) (front.length + k) = wordAt image k := by
  have first : (front ++ image)[front.length + k]? = image[k]? := by
    rw [List.getElem?_append_right (Nat.le_add_right _ _), Nat.add_sub_cancel_left]
  have second : (front ++ image)[front.length + k + 1]? = image[k + 1]? := by
    rw [Nat.add_assoc, List.getElem?_append_right (Nat.le_add_right _ _), Nat.add_sub_cancel_left]
  rw [wordAt, wordAt, first, second]

theorem wordAt_bytes (w : UInt16) (rest : List UInt8) : wordAt (Word.bytes w ++ rest) 0 = some w.toNat := by
  have number : (Word.low w).toNat + 256 * (Word.high w).toNat = w.toNat := by
    have := w.toNat_lt
    simp only [Word.low, Word.high, UInt16.toNat_toUInt8, UInt16.toNat_div]
    show w.toNat % 256 + 256 * (w.toNat / 256 % 256) = w.toNat
    omega
  exact congrArg some number

/-- The address of a site stands there. -/
theorem word_of_site (base : UInt16) {parts : List Part} {pos : Nat} {s : Site} (h : s ∈ sitesFrom pos parts) :
    Part.address s.target ∈ parts ∧ ∃ k, s.offset = pos + k ∧
      wordAt (loaded base parts) k = some (base + UInt16.ofNat s.target).toNat := by
  induction parts generalizing pos with
  | nil => exact absurd h List.not_mem_nil
  | cons part parts ih =>
    cases part with
    | bytes bs =>
      obtain ⟨mem, k, offset, word⟩ := ih h
      exact ⟨List.mem_cons_of_mem _ mem, bs.length + k, by omega, (wordAt_append bs _ k).trans word⟩
    | address target =>
      rcases List.mem_cons.1 h with rfl | h
      · exact ⟨List.mem_cons_self, 0, rfl, wordAt_bytes _ _⟩
      · obtain ⟨mem, k, offset, word⟩ := ih h
        exact ⟨List.mem_cons_of_mem _ mem, 2 + k, by omega, (wordAt_append (Word.bytes _) _ k).trans word⟩

theorem sites_apart (pos : Nat) (parts : List Part) :
    (sitesFrom pos parts).Pairwise fun s s' => s.offset + 2 ≤ s'.offset := by
  induction parts generalizing pos with
  | nil => exact .nil
  | cons part parts ih =>
    cases part with
    | bytes bs => exact ih _
    | address target =>
      refine .cons (fun s hs => ?_) (ih _)
      obtain ⟨-, k, offset, -⟩ := word_of_site 0 hs
      show pos + 2 ≤ s.offset
      omega

theorem loaded_outside (base base' : UInt16) {parts : List Part} (pos k : Nat)
    (h : ∀ s ∈ sitesFrom pos parts, ¬ s.Covers (pos + k)) : (loaded base parts)[k]? = (loaded base' parts)[k]? := by
  induction parts generalizing pos k with
  | nil => rfl
  | cons part parts ih =>
    rw [loaded_cons, loaded_cons]
    cases part with
    | bytes bs =>
      show (bs ++ loaded base parts)[k]? = (bs ++ loaded base' parts)[k]?
      by_cases hk : k < bs.length
      · rw [List.getElem?_append_left hk, List.getElem?_append_left hk]
      · have place : pos + bs.length + (k - bs.length) = pos + k := by omega
        rw [List.getElem?_append_right (Nat.not_lt.1 hk), List.getElem?_append_right (Nat.not_lt.1 hk)]
        refine ih (pos + bs.length) _ fun s hs => ?_
        rw [place]
        exact h s hs
    | address target =>
      have apart := h ⟨pos, target⟩ List.mem_cons_self
      have hk : 2 ≤ k := by
        simp only [Site.Covers] at apart
        omega
      have place : pos + 2 + (k - 2) = pos + k := by omega
      have two : ∀ b : UInt16, ((Part.address target).loaded b).length = 2 := fun _ => rfl
      rw [List.getElem?_append_right (by rwa [two]), List.getElem?_append_right (by rwa [two]), two, two]
      refine ih (pos + 2) _ fun s hs => ?_
      rw [place]
      exact h s (List.mem_cons_of_mem _ hs)

/-- Code, as it is for each base, that refers to offsets below `limit` only. -/
def Relocatable (limit : Nat) (code : UInt16 → List UInt8) : Prop :=
  ∃ parts, (∀ base, code base = loaded base parts) ∧ ∀ target, Part.address target ∈ parts → target < limit

namespace Relocatable

variable {limit : Nat} {code code' : UInt16 → List UInt8}

theorem fixed (bytes : List UInt8) : Relocatable limit fun _ => bytes := by
  refine ⟨[.bytes bytes], fun _ => (List.append_nil bytes).symm, fun target h => ?_⟩
  rcases List.mem_singleton.1 h with h
  exact nomatch h

theorem append (h : Relocatable limit code) (h' : Relocatable limit code') :
    Relocatable limit fun base => code base ++ code' base := by
  obtain ⟨parts, eq, low⟩ := h
  obtain ⟨parts', eq', low'⟩ := h'
  refine ⟨parts ++ parts', fun base => ?_, fun target h => ?_⟩
  · rw [loaded_append, ← eq, ← eq']
  · rcases List.mem_append.1 h with h | h
    · exact low target h
    · exact low' target h

/-- A register is loaded with the address of an offset. -/
theorem movImm (dst : Reg) {target : Nat} (h : target < limit) :
    Relocatable limit fun base => (Instr.movImm dst (base + UInt16.ofNat target)).encode := by
  refine ⟨[.bytes [0xb8 + dst.code], .address target], fun base => rfl, fun t ht => ?_⟩
  rcases List.mem_cons.1 ht with ht | ht
  · exact nomatch ht
  · cases List.mem_singleton.1 ht
    exact h

end Relocatable

/-! ## Expressions -/

/-- What code refers to, for each base: the functions in `known` stand at offsets below `limit`. -/
structure Located (limit : Nat) (known : List String) (link : UInt16 → Link) : Prop where
  base : ∀ b, (link b).base = b
  entry : ∀ name ∈ known, ∃ start, start < limit ∧ ∀ b, (link b).entry name = b + UInt16.ofNat start

variable {limit : Nat} {known : List String} {link : UInt16 → Link}

theorem Located.addr (hl : Located limit known link) (b : UInt16) (pos : Nat) :
    (link b).addr pos = b + UInt16.ofNat pos := by
  rw [Link.addr, hl.base]

theorem Leaf.relocatable (hl : Located limit known link) (frame : Frame) (dst : Reg) {pos : Nat} (leaf : Leaf)
    (hp : pos + leaf.size frame dst ≤ limit) : Relocatable limit fun b => leaf.code (link b) frame dst pos := by
  cases leaf with
  | var name => exact .fixed _
  | int value => exact .fixed _
  | str text =>
    simp only [Leaf.code, hl.addr]
    rw [Leaf.size] at hp
    exact (Relocatable.fixed _).append (.movImm dst (by omega))

/-- The right operand of an operator, once its expression is relocatable. -/
theorem Expr.relocatable_right (hl : Located limit known link) (frame : Frame) {pos : Nat} (e : Expr)
    (he : pos + 1 + e.size frame ≤ limit → Relocatable limit fun b => e.code (link b) frame (pos + 1))
    (hp : pos + e.rightSize frame ≤ limit) : Relocatable limit fun b => e.rightCode (link b) frame pos := by
  unfold Expr.rightSize at hp
  unfold Expr.rightCode
  cases hleaf : e.leaf? with
  | some leaf =>
    simp only [hleaf] at hp ⊢
    exact leaf.relocatable hl frame .bx hp
  | none =>
    simp only [hleaf, Instr.size_push, Instr.size_movReg, Instr.size_pop] at hp ⊢
    exact (((Relocatable.fixed _).append (he (by omega))).append (.fixed _)).append (.fixed _)

mutual

theorem Expr.relocatable (hl : Located limit known link) (frame : Frame) {pos : Nat} (e : Expr)
    (hw : e.WellFormed frame known) (hp : pos + e.size frame ≤ limit) :
    Relocatable limit fun b => e.code (link b) frame pos := by
  match e with
  | .ident _ | .int _ | .str _ => exact Leaf.relocatable hl frame .ax _ hp
  | .call name args =>
    rw [Expr.WellFormed] at hw
    by_cases hn : name = puts
    · subst hn
      match args with
      | [message] =>
        simp only [Expr.size, if_true] at hp
        simp only [Expr.code, if_true]
        exact ((message.relocatable hl frame hw.2.1 (by omega)).append (.fixed _)).append (.fixed _)
      | [] | _ :: _ :: _ => exact .fixed _
    · rw [if_neg hn] at hw
      rw [Expr.size.eq_def] at hp
      simp only [if_neg hn] at hp
      obtain ⟨start, hs, entry⟩ := hl.entry name hw.1
      simp only [Expr.code_call hn, entry]
      exact (((argsCode_relocatable hl frame args hw.2 (by omega)).append (.movImm .ax hs)).append
        (.fixed _)).append (.fixed _)
  | .assign _ value =>
    rw [Expr.size] at hp
    simp only [Expr.code]
    exact (value.relocatable hl frame hw.2 (by omega)).append (.fixed _)
  | .chain operands operators =>
    match operands with
    | [] => exact .fixed _
    | first :: rest =>
      rw [Expr.size] at hp
      simp only [Expr.code]
      exact (first.relocatable hl frame hw.2.2.1 (by omega)).append
        (tailCode_relocatable hl frame operators rest hw.2.2.2 (by omega))

theorem argsCode_relocatable (hl : Located limit known link) (frame : Frame) {pos : Nat} (args : List Expr)
    (hw : allWellFormed frame known args) (hp : pos + argsSize frame args ≤ limit) :
    Relocatable limit fun b => argsCode (link b) frame pos args := by
  match args with
  | [] => exact .fixed _
  | arg :: args =>
    rw [argsSize] at hp
    simp only [argsCode]
    exact ((argsCode_relocatable hl frame args hw.2 (by omega)).append
      (arg.relocatable hl frame hw.1 (by omega))).append (.fixed _)

theorem tailCode_relocatable (hl : Located limit known link) (frame : Frame) {pos : Nat} (ops : List BinaryOp)
    (operands : List Expr) (hw : allWellFormed frame known operands) (hp : pos + tailSize frame ops operands ≤ limit) :
    Relocatable limit fun b => tailCode (link b) frame pos ops operands := by
  match ops, operands with
  | op :: ops, operand :: operands =>
    rw [tailSize_cons] at hp
    have right : Relocatable limit fun b => operand.rightCode (link b) frame pos :=
      operand.relocatable_right hl frame (fun h => operand.relocatable hl frame hw.1 h) (by omega)
    simp only [tailCode_cons]
    exact (right.append (.fixed _)).append (tailCode_relocatable hl frame ops operands hw.2 (by omega))
  | [], [] | [], _ :: _ | _ :: _, [] => exact .fixed _

end

/-! ## Statements -/

mutual

theorem Stmt.relocatable (hl : Located limit known link) (frame : Frame) {pos : Nat} (st : Stmt)
    (hw : st.WellFormed frame known) (hp : pos + st.size frame < limit) :
    Relocatable limit fun b => st.code (link b) frame pos := by
  match st with
  | .declare _ _ | .loop _ _ => exact .fixed _
  | .expr e => exact e.relocatable hl frame hw (Nat.le_of_lt hp)
  | .ret e =>
    rw [Stmt.size] at hp
    simp only [Stmt.code]
    exact (e.relocatable hl frame hw (by omega)).append (.fixed _)
  | .cond chain =>
    rw [Stmt.size] at hp
    simp only [Stmt.code, hl.addr]
    exact chain.relocatable hl frame hw hp hp

/-- The branches of a chain are left for an offset inside the image. -/
theorem IfChain.relocatable (hl : Located limit known link) (frame : Frame) {pos exit : Nat} (chain : IfChain)
    (hw : chain.WellFormed frame known) (hp : pos + chain.size frame < limit) (he : exit < limit) :
    Relocatable limit fun b => chain.code (link b) frame pos (b + UInt16.ofNat exit) := by
  match chain with
  | .branch guard body next =>
    rw [IfChain.size] at hp
    simp only [Instr.size_test, Instr.size_jcc, Instr.size_movImm, Instr.size_jmpReg] at hp
    have behind : bodySize frame body = stmtsSize frame body + 5 := rfl
    simp only [IfChain.code]
    have guarded : Relocatable limit fun b => guard.code (link b) frame pos :=
      guard.relocatable hl frame hw.1 (by omega)
    have inside : Relocatable limit fun b => stmtsCode (link b) frame (pos + guard.size frame + 4) body :=
      stmtsCode_relocatable hl frame body hw.2.1 (by omega)
    exact (((((guarded.append (.fixed _)).append (.fixed _)).append inside).append (.movImm .ax he)).append
      (.fixed _)).append
      (next.relocatable hl (frameAfter frame body) hw.2.2.2 (by omega) he)
  | .otherwise body => exact stmtsCode_relocatable hl frame body hw hp
  | .done => exact .fixed _

theorem stmtsCode_relocatable (hl : Located limit known link) (frame : Frame) {pos : Nat} (ss : List Stmt)
    (hw : stmtsWellFormed frame known ss) (hp : pos + stmtsSize frame ss < limit) :
    Relocatable limit fun b => stmtsCode (link b) frame pos ss := by
  match ss with
  | [] => exact .fixed _
  | st :: ss =>
    rw [stmtsSize] at hp
    simp only [stmtsCode]
    exact (st.relocatable hl frame hw.1 (by omega)).append
      (stmtsCode_relocatable hl (st.frame frame) ss hw.2 (by omega))

end

/-! ## Functions and programs -/

theorem Function.relocatable (hl : Located limit known link) {pos : Nat} (f : Function) (hw : f.WellFormed known)
    (hp : pos + f.size ≤ limit) : Relocatable limit fun b => f.code (link b) pos := by
  have behind := length_epilogue_pos (frameAfter f.frame f.body)
  have size : f.size = 3 + stmtsSize f.frame f.body +
      (encodeAll (epilogueInstrs (frameAfter f.frame f.body))).length := rfl
  have body : Relocatable limit fun b => stmtsCode (link b) f.frame (pos + 3) f.body :=
    stmtsCode_relocatable hl f.frame f.body hw.body (by omega)
  simp only [Function.code]
  exact (((Relocatable.fixed _).append body)).append (.fixed _)

theorem Located.mono {less : List String} (hl : Located limit known link) (hs : ∀ name ∈ less, name ∈ known) :
    Located limit less link :=
  ⟨hl.base, fun name hn => hl.entry name (hs name hn)⟩

theorem functionsCode_relocatable {all : List String} (hl : Located limit all link) (fs : List Function)
    {known : List String} {pos : Nat} (hw : functionsWellFormed known fs) (hk : ∀ name ∈ known, name ∈ all)
    (hf : ∀ name ∈ fs.map Function.name, name ∈ all) (hp : pos + functionsSize fs ≤ limit) :
    Relocatable limit fun b => functionsCode (link b) pos fs := by
  induction fs generalizing known pos with
  | nil => exact .fixed _
  | cons f fs ih =>
    rw [functionsSize] at hp
    have known' : ∀ name ∈ f.name :: known, name ∈ all := by
      intro name hn
      rcases List.mem_cons.1 hn with rfl | hn
      · exact hf _ List.mem_cons_self
      · exact hk name hn
    simp only [functionsCode]
    exact (f.relocatable (hl.mono known') hw.1.2 (by omega)).append
      (ih hw.2 known' (fun name hn => hf name (List.mem_cons_of_mem _ hn)) (by omega))

namespace Program

/-- The functions of a program stand at the same offsets wherever it is loaded. -/
theorem located {p : Program} (hd : (p.functions.map Function.name).Nodup) :
    Located p.size (p.functions.map Function.name) p.link := by
  refine ⟨fun _ => rfl, fun name hn => ?_⟩
  obtain ⟨start, hs⟩ := exists_start hn stubSize
  refine ⟨start, start_le hs, fun b => ?_⟩
  rw [Link.entry, link, address?_of_start b hd hs, Option.getD_some]

theorem code_relocatable {p : Program} {entryPoint : String} (hw : p.WellFormed entryPoint) :
    Relocatable p.size fun base => p.code base entryPoint := by
  have hl := located hw.distinct
  obtain ⟨start, hs, entry⟩ := hl.entry entryPoint hw.entry
  have functions : Relocatable p.size fun base => functionsCode (p.link base) stubSize p.functions :=
    functionsCode_relocatable hl p.functions ((wellFormed_iff p _).1 hw).1 (fun _ hn => absurd hn List.not_mem_nil)
      (fun _ hn => hn) (Nat.le_refl _)
  simp only [code, entry, stub, encodeAll_cons]
  exact ((Relocatable.movImm .ax hs).append (.fixed _)).append functions

variable {p : Program} {capacity : Nat} {entryPoint : String} {base base' : UInt16}

/-- What is wrong with a program does not depend on where it is loaded. -/
theorem compile_error_congr {e : CompileError} (layout : base.toNat + capacity ≤ segmentSize)
    (layout' : base'.toNat + capacity ≤ segmentSize)
    (h : p.compile ⟨base, capacity, entryPoint⟩ = .error (.rejected e)) :
    p.compile ⟨base', capacity, entryPoint⟩ = .error (.rejected e) := by
  have states : (Comparison.elsewhere True).Related .outside { image := ⟨#[], base, capacity⟩ }
      { image := ⟨#[], base', capacity⟩ } := ⟨⟨rfl, rfl⟩, rfl, trivial⟩
  obtain ⟨g, failed⟩ := lower_of_compile_error h layout
  rcases p.lower_elsewhere entryPoint (.inl trivial) states with ⟨_, _, left, -⟩ | ⟨f, _, _, left, right, -⟩
  · rw [failed] at left
    cases left
  · rw [failed] at left
    cases left
    rw [compile_eq_lower layout', right]
    rfl

/-- Two images of a program differ in the addresses they hold. -/
theorem compile_instances {parts : List Part} (hw : p.WellFormed entryPoint) (hr : p.size ≤ capacity)
    (eq : ∀ base, p.code base entryPoint = loaded base parts)
    (low : ∀ target, Part.address target ∈ parts → target < p.size) (layout : base.toNat + capacity ≤ segmentSize) :
    ∃ image, p.compile ⟨base, capacity, entryPoint⟩ = .ok image ∧ image.toList = loaded base parts ∧
      ∀ s ∈ sitesFrom 0 parts, wordAt image.toList s.offset = some (s.target + base.toNat) := by
  refine ⟨_, compile_eq_code layout hw hr, eq base, fun s hs => ?_⟩
  obtain ⟨mem, k, offset, word⟩ := word_of_site base hs
  have small := low s.target mem
  have sum : (base + UInt16.ofNat s.target).toNat = s.target + base.toNat := by
    rw [segmentSize] at layout
    rw [UInt16.toNat_add, UInt16.toNat_ofNat']
    omega
  rw [offset, Nat.zero_add, ← sum, ← word, ← eq]

/-- Wherever a program is loaded, it is refused for the same reason, or its image is made from the
    same template: outside of some words the bytes are the same, and each of these words is the
    loaded address of an offset that is always the same. -/
theorem compile_relocates (p : Program) (capacity : Nat) (entryPoint : String) :
    (∃ e, ∀ base : UInt16, base.toNat + capacity ≤ segmentSize →
        p.compile ⟨base, capacity, entryPoint⟩ = .error (.rejected e)) ∨
      ∃ (size : Nat) (sites : List Site), sites.Pairwise (fun s s' => s.offset + 2 ≤ s'.offset) ∧
        (∀ s ∈ sites, s.offset + 2 ≤ size ∧ s.target < size) ∧
        ∀ base base' : UInt16, base.toNat + capacity ≤ segmentSize → base'.toNat + capacity ≤ segmentSize →
          ∃ image image', p.compile ⟨base, capacity, entryPoint⟩ = .ok image ∧
            p.compile ⟨base', capacity, entryPoint⟩ = .ok image' ∧ image.size = size ∧ image'.size = size ∧
            (∀ k, (∀ s ∈ sites, ¬ s.Covers k) → image.toList[k]? = image'.toList[k]?) ∧
            ∀ s ∈ sites, wordAt image.toList s.offset = some (s.target + base.toNat) ∧
              wordAt image'.toList s.offset = some (s.target + base'.toNat) := by
  by_cases ok : p.WellFormed entryPoint ∧ p.size ≤ capacity
  · obtain ⟨hw, hr⟩ := ok
    obtain ⟨parts, eq, low⟩ := code_relocatable hw
    have size : ∀ base, (loaded base parts).length = p.size := fun base => by rw [← eq, length_code]
    refine .inr ⟨p.size, sitesFrom 0 parts, sites_apart 0 parts, fun s hs => ?_, fun base base' layout layout' => ?_⟩
    · obtain ⟨mem, k, offset, word⟩ := word_of_site 0 hs
      have inside := le_length_of_wordAt word
      rw [size] at inside
      exact ⟨by omega, low s.target mem⟩
    · obtain ⟨image, compiled, himage, words⟩ := compile_instances hw hr eq low layout
      obtain ⟨image', compiled', himage', words'⟩ := compile_instances hw hr eq low layout'
      refine ⟨image, image', compiled, compiled', ?_, ?_, fun k hk => ?_, fun s hs => ⟨words s hs, words' s hs⟩⟩
      · rw [← Array.length_toList, himage, size]
      · rw [← Array.length_toList, himage', size]
      · rw [himage, himage']
        exact loaded_outside base base' 0 k fun s hs => by rw [Nat.zero_add]; exact hk s hs
  · by_cases room : capacity ≤ segmentSize
    · obtain ⟨e, he⟩ := @compile_refused p ⟨0, capacity, entryPoint⟩ (by simpa using room) ok
      exact .inl ⟨e, fun base layout => compile_error_congr (by simpa using room) layout he⟩
    · refine .inl ⟨.missingEntryPoint entryPoint, fun base layout => absurd ?_ room⟩
      omega

/-- The sample at the usual base and at the end of the segment. -/
theorem sample_relocates :
    ∃ image image', sample.compile ⟨0x100, sample.size, "main"⟩ = .ok image ∧
      sample.compile ⟨UInt16.ofNat (segmentSize - sample.size), sample.size, "main"⟩ = .ok image' ∧
      image.size = image'.size ∧ ∃ sites : List Site, (∀ s ∈ sites, s.target < image.size) ∧
        ∀ k, (∀ s ∈ sites, ¬ s.Covers k) → image.toList[k]? = image'.toList[k]? := by
  have layout : (0x100 : UInt16).toNat + sample.size ≤ segmentSize := by decide +kernel
  have layout' : (UInt16.ofNat (segmentSize - sample.size)).toNat + sample.size ≤ segmentSize := by decide +kernel
  rcases compile_relocates sample sample.size "main" with ⟨e, refused⟩ | ⟨size, sites, -, inside, instances⟩
  · have compiled := @compile_eq_code sample ⟨0x100, sample.size, "main"⟩ layout (by decide +kernel) (Nat.le_refl _)
    rw [refused 0x100 layout] at compiled
    exact nomatch compiled
  · obtain ⟨image, image', h, h', hs, hs', same, -⟩ := instances _ _ layout layout'
    exact ⟨image, image', h, h', hs.trans hs'.symm, sites, fun s hm => hs ▸ (inside s hm).2, same⟩

end Program

end DotCom
