/-
  DotCom.Proofs.Safety — what lowering gives back of the stack. A call drops its arguments and a return
  drops the variables, both with a signed word, so that the number might be too large for it. It never is:
  so many arguments would not fit into a segment, and so many variables are refused.

  - `Program.releases`: every call and every return of a program, by its offset in the image and the
    bytes it has to give back.
  - `call_release_at`: a call that stands in a segment has few enough arguments.
  - `Program.lower_safe`: lowering gives an image in which every release is exact, or refuses. It never
    crashes, and there is always a frame where it needs one.
-/

import DotCom.Proofs.Placement
import DotCom.Proofs.Sessions

namespace DotCom

open Placement

/-! ## What is given back -/

/-- Code that gives stack back. -/
inductive Release where
  /-- A call at an offset, with the bytes of its arguments. -/
  | call (pos bytes : Nat)
  /-- A return at an offset, with the bytes of the variables declared before it. -/
  | epilogue (pos bytes : Nat)
  deriving DecidableEq, Repr

/-- The image gives back exactly as many bytes. -/
def Release.At (P : Placement) : Release → Prop
  | call pos bytes => ∃ v : Int16, v.toInt = bytes ∧ P.Holds pos (encodeAll [.callReg .ax, .addImm .sp v])
  | epilogue pos bytes => ∃ v : Int16, v.toInt = bytes ∧ P.Holds pos (encodeAll [.addImm .sp v, .pop .bp, .ret])

mutual

/-- The calls in the code of an expression that starts at `pos`. -/
def Expr.releases (frame : Frame) (pos : Nat) : Expr → List Release
  | .ident _ | .int _ | .str _ => []
  | .call name args =>
    argsReleases frame pos args ++
      if name = puts then [] else [.call (pos + argsSize frame args + 3) (2 * args.length)]
  | .assign _ value => value.releases frame pos
  | .chain operands operators =>
    match operands with
    | [] => []
    | first :: rest => first.releases frame pos ++ tailReleases frame (pos + first.size frame) operators rest

def argsReleases (frame : Frame) (pos : Nat) : List Expr → List Release
  | [] => []
  | arg :: args => argsReleases frame pos args ++ arg.releases frame (pos + argsSize frame args)

/-- An operand stands behind the push of `ax`, unless it is a leaf, and then it holds no call. -/
def tailReleases (frame : Frame) (pos : Nat) : List BinaryOp → List Expr → List Release
  | op :: ops, operand :: operands =>
    operand.releases frame (pos + 1) ++
      tailReleases frame (pos + operand.rightSize frame + (encodeAll op.instrs).length) ops operands
  | _, _ => []

end

mutual

/-- The calls and returns of a statement behind `count` declarations. -/
def Stmt.releases (frame : Frame) (count pos : Nat) : Stmt → List Release
  | .declare _ _ | .loop _ _ => []
  | .expr e => e.releases frame pos
  | .ret e => e.releases frame pos ++ [.epilogue (pos + e.size frame) (2 * count)]
  | .cond chain => chain.releases frame count pos

def IfChain.releases (frame : Frame) (count pos : Nat) : IfChain → List Release
  | .branch guard body next =>
    guard.releases frame pos ++ stmtsReleases frame count (pos + guard.size frame + 4) body ++
      next.releases (frameAfter frame body) (count + declaredIn body) (pos + guard.size frame + 4 + bodySize frame body)
  | .otherwise body => stmtsReleases frame count pos body
  | .done => []

def stmtsReleases (frame : Frame) (count pos : Nat) : List Stmt → List Release
  | [] => []
  | st :: ss =>
    st.releases frame count pos ++ stmtsReleases (st.frame frame) (count + st.declared) (pos + st.size frame) ss

end

/-- A function ends with a return of its own. -/
def Function.releases (pos : Nat) (f : Function) : List Release :=
  stmtsReleases f.frame 0 (pos + 3) f.body ++ [.epilogue (pos + 3 + stmtsSize f.frame f.body) (2 * declaredIn f.body)]

def functionsReleases (pos : Nat) : List Function → List Release
  | [] => []
  | f :: fs => f.releases pos ++ functionsReleases (pos + f.size) fs

def Program.releases (p : Program) : List Release := functionsReleases stubSize p.functions

/-! ## Exact releases -/

variable {P : Placement} {link : Link} {known : List String} {frame : Frame}

/-- Fewer than 16384 arguments are dropped exactly. -/
theorem toInt_argBytes {count : Nat} (h : 2 * count ≤ 32767) : (argBytes count).toInt = (2 * count : Nat) := by
  rw [argBytes, if_pos h, Int16.toInt_ofNat_of_lt (by omega)]

theorem call_release_at (hl : P.Links link known) (segment : P.base.toNat + P.image.length ≤ segmentSize)
    {name : String} {args : List Expr} {i : Nat} (hn : name ≠ puts) (hw : allWellFormed frame known args)
    (hh : P.Holds i ((Expr.call name args).code link frame i)) :
    (Release.call (i + argsSize frame args + 3) (2 * args.length)).At P := by
  rw [Expr.code_call hn, List.append_assoc] at hh
  have fits := hh.le
  obtain ⟨hfront, hcall⟩ := Holds.append hh
  simp only [List.length_append, length_argsCode, Instr.length_encode, Instr.size_movImm,
    Instr.size_callReg] at hcall fits
  rw [segmentSize] at segment
  -- Every argument takes four bytes or more, so as many as a signed word cannot count fill the segment.
  have least := argsAt_le (argsAt_of_holds hl args hw rfl hfront.append.1 (by omega))
  have bound : 2 * args.length ≤ 32767 := by omega
  refine ⟨argBytes args.length, toInt_argBytes bound, ?_⟩
  rw [Nat.add_assoc, encodeAll_cons, encodeAll_cons, encodeAll_nil, List.append_nil]
  exact hcall

/-- A leaf calls nothing. -/
theorem Expr.releases_of_leaf {e : Expr} {leaf : Leaf} {i : Nat} (h : e.leaf? = some leaf) :
    e.releases frame i = [] := by
  cases e with
  | ident _ | int _ | str _ => rw [Expr.releases]
  | call _ _ | assign _ _ | chain _ _ => cases h

mutual

theorem Expr.releases_at (hl : P.Links link known) (segment : P.base.toNat + P.image.length ≤ segmentSize) (e : Expr)
    {i : Nat} (hw : e.WellFormed frame known) (hh : P.Holds i (e.code link frame i)) :
    ∀ r ∈ e.releases frame i, r.At P := by
  match e with
  | .ident _ | .int _ | .str _ => exact fun r hr => absurd hr List.not_mem_nil
  | .call name args =>
    by_cases hn : name = puts
    · subst hn
      match args, hw with
      | [message], hw =>
        simp only [Expr.releases, argsReleases, if_true, List.nil_append, List.append_nil, argsSize, Nat.add_zero]
        refine message.releases_at hl segment hw.2.1 ?_
        rw [Expr.code.eq_def] at hh
        simp only [if_true, List.append_assoc] at hh
        exact hh.append.1
      | [], hw | _ :: _ :: _, hw => exact absurd hw.1 (by simp)
    · have last := call_release_at hl segment hn hw.2 hh
      rw [Expr.code_call hn, List.append_assoc, List.append_assoc] at hh
      rw [Expr.releases, if_neg hn]
      simp only [List.mem_append, List.mem_singleton]
      rintro r (hr | rfl)
      · exact argsReleases_at hl segment args hw.2 hh.append.1 r hr
      · exact last
  | .assign target value =>
    rw [Expr.releases]
    exact value.releases_at hl segment hw.2 hh.append.1
  | .chain operands operators =>
    match operands, hw with
    | [], hw => exact absurd hw.1 (by simp)
    | first :: rest, hw =>
      obtain ⟨hfirst, hrest⟩ := hh.append
      rw [Expr.length_code] at hrest
      rw [Expr.releases]
      simp only [List.mem_append]
      rintro r (hr | hr)
      · exact first.releases_at hl segment hw.2.2.1 hfirst r hr
      · exact tailReleases_at hl segment operators rest hw.2.2.2 hrest r hr

theorem argsReleases_at (hl : P.Links link known) (segment : P.base.toNat + P.image.length ≤ segmentSize)
    (args : List Expr) {i : Nat} (hw : allWellFormed frame known args) (hh : P.Holds i (argsCode link frame i args)) :
    ∀ r ∈ argsReleases frame i args, r.At P := by
  match args with
  | [] => exact fun r hr => absurd hr List.not_mem_nil
  | arg :: args =>
    obtain ⟨hargs, harg⟩ := hh.append.1.append
    rw [length_argsCode] at harg
    rw [argsReleases]
    simp only [List.mem_append]
    rintro r (hr | hr)
    · exact argsReleases_at hl segment args hw.2 hargs r hr
    · exact arg.releases_at hl segment hw.1 harg r hr

theorem tailReleases_at (hl : P.Links link known) (segment : P.base.toNat + P.image.length ≤ segmentSize)
    (ops : List BinaryOp) (operands : List Expr) {i : Nat} (hw : allWellFormed frame known operands)
    (hh : P.Holds i (tailCode link frame i ops operands)) : ∀ r ∈ tailReleases frame i ops operands, r.At P := by
  match ops, operands with
  | [], [] | [], _ :: _ | _ :: _, [] => exact fun r hr => absurd hr List.not_mem_nil
  | op :: ops, operand :: operands =>
    rw [tailCode_cons] at hh
    obtain ⟨hfront, hrest⟩ := hh.append
    rw [List.length_append, Expr.length_rightCode, ← Nat.add_assoc] at hrest
    rw [tailReleases]
    simp only [List.mem_append]
    rintro r (hr | hr)
    · have hright := hfront.append.1
      unfold Expr.rightCode at hright
      cases hleaf : operand.leaf? with
      | some leaf =>
        rw [Expr.releases_of_leaf hleaf] at hr
        exact absurd hr List.not_mem_nil
      | none =>
        simp only [hleaf, List.append_assoc] at hright
        exact operand.releases_at hl segment hw.1 hright.append.2.append.1 r hr
    · exact tailReleases_at hl segment ops operands hw.2 hrest r hr

end

/-- A frame behind `count` declarations, with room for `more`. -/
structure Frame.Counts (frame : Frame) (count more : Nat) : Prop where
  sound : frame.Sound
  allocated : frame.allocated.toNat = 2 * count
  room : 2 * (count + more) ≤ maxAllocated

namespace Frame.Counts

variable {count more : Nat}

theorem room_of (h : frame.Counts count more) : frame.allocated.toNat + 2 * more ≤ maxAllocated := by
  rw [h.allocated, ← Nat.mul_add]
  exact h.room

theorem less {less : Nat} (h : frame.Counts count more) (hl : less ≤ more) : frame.Counts count less :=
  ⟨h.sound, h.allocated, Nat.le_trans (Nat.mul_le_mul_left 2 (Nat.add_le_add_left hl count)) h.room⟩

theorem stmt {st : Stmt} (h : frame.Counts count (st.declared + more)) :
    (st.frame frame).Counts (count + st.declared) more := by
  have room := (h.less (Nat.le_add_right _ _)).room_of
  refine ⟨st.sound_frame frame h.sound room, ?_, ?_⟩
  · rw [st.toNat_allocated frame room, h.allocated, Nat.mul_add]
  · rw [Nat.add_assoc]
    exact h.room

theorem after {ss : List Stmt} (h : frame.Counts count (declaredIn ss + more)) :
    (frameAfter frame ss).Counts (count + declaredIn ss) more := by
  have room := (h.less (Nat.le_add_right _ _)).room_of
  refine ⟨sound_after frame ss h.sound room, ?_, ?_⟩
  · rw [toNat_allocated_after frame ss room, h.allocated, Nat.mul_add]
  · rw [Nat.add_assoc]
    exact h.room

theorem toInt_frameSize (h : frame.Counts count more) : frame.frameSize.toInt = (2 * count : Nat) := by
  have small : frame.allocated.toNat ≤ 32767 := h.sound.small
  rw [Frame.frameSize_eq h.sound, Word.toInt_toInt16_of_lt (by omega), h.allocated]

end Frame.Counts

theorem Function.WellFormed.counts {f : Function} (h : f.WellFormed known) : f.frame.Counts 0 (declaredIn f.body) := by
  have declared : declaredIn f.body ≤ 16383 := h.declared
  refine ⟨Frame.Sound.start f.name, rfl, ?_⟩
  show 2 * (0 + declaredIn f.body) ≤ 32767
  omega

mutual

theorem Stmt.releases_at (hl : P.Links link known) (segment : P.base.toNat + P.image.length ≤ segmentSize) (st : Stmt)
    {frame : Frame} {count i : Nat} (hw : st.WellFormed frame known) (hf : frame.Counts count st.declared)
    (hh : P.Holds i (st.code link frame i)) : ∀ r ∈ st.releases frame count i, r.At P := by
  match st with
  | .declare _ _ | .loop _ _ => exact fun r hr => absurd hr List.not_mem_nil
  | .expr e => exact e.releases_at hl segment hw hh
  | .ret e =>
    obtain ⟨hvalue, hend⟩ := hh.append
    rw [Expr.length_code] at hend
    rw [Stmt.releases]
    simp only [List.mem_append, List.mem_singleton]
    rintro r (hr | rfl)
    · exact e.releases_at hl segment hw hvalue r hr
    · exact ⟨frame.frameSize, hf.toInt_frameSize, hend⟩
  | .cond chain => exact chain.releases_at hl segment hw hf hh

theorem IfChain.releases_at (hl : P.Links link known) (segment : P.base.toNat + P.image.length ≤ segmentSize)
    (chain : IfChain) {frame : Frame} {count i : Nat} {exit : UInt16} (hw : chain.WellFormed frame known)
    (hf : frame.Counts count chain.declared) (hh : P.Holds i (chain.code link frame i exit)) :
    ∀ r ∈ chain.releases frame count i, r.At P := by
  match chain with
  | .branch guard body next =>
    obtain ⟨hguard, -, hbody, -, hnext⟩ := branch_pieces hh
    rw [IfChain.releases]
    simp only [List.mem_append]
    rintro r ((hr | hr) | hr)
    · exact guard.releases_at hl segment hw.1 hguard r hr
    · exact stmtsReleases_at hl segment body hw.2.1 (hf.less (Nat.le_add_right _ _)) hbody r hr
    · exact next.releases_at hl segment hw.2.2.2 hf.after hnext r hr
  | .otherwise body => exact stmtsReleases_at hl segment body hw hf hh
  | .done => exact fun r hr => absurd hr List.not_mem_nil

theorem stmtsReleases_at (hl : P.Links link known) (segment : P.base.toNat + P.image.length ≤ segmentSize)
    (ss : List Stmt) {frame : Frame} {count i : Nat} (hw : stmtsWellFormed frame known ss)
    (hf : frame.Counts count (declaredIn ss)) (hh : P.Holds i (stmtsCode link frame i ss)) :
    ∀ r ∈ stmtsReleases frame count i ss, r.At P := by
  match ss with
  | [] => exact fun r hr => absurd hr List.not_mem_nil
  | st :: ss =>
    obtain ⟨hst, hss⟩ := hh.append
    rw [Stmt.length_code] at hss
    rw [stmtsReleases]
    simp only [List.mem_append]
    rintro r (hr | hr)
    · exact st.releases_at hl segment hw.1 (hf.less (Nat.le_add_right _ _)) hst r hr
    · exact stmtsReleases_at hl segment ss hw.2 hf.stmt hss r hr

end

/-- The bytes of a function: its prologue, its body, and the epilogue that is reached without a return. -/
theorem function_pieces {f : Function} {i : Nat} (hh : P.Holds i (f.code link i)) :
    P.Holds i (encodeAll [.push .bp, .movReg .bp .sp]) ∧ P.Holds (i + 3) (stmtsCode link f.frame (i + 3) f.body) ∧
      P.Holds (i + 3 + stmtsSize f.frame f.body) (encodeAll (epilogueInstrs (frameAfter f.frame f.body))) := by
  obtain ⟨hfront, hend⟩ := hh.append
  obtain ⟨hstart, hbody⟩ := hfront.append
  simp only [List.length_append, Instr.length_encode, Instr.size_push, Instr.size_movReg, length_stmtsCode,
    ← Nat.add_assoc] at hbody hend
  exact ⟨hstart, hbody, hend⟩

theorem Function.releases_at (hl : P.Links link known) (segment : P.base.toNat + P.image.length ≤ segmentSize)
    (f : Function) {i : Nat} (hw : f.WellFormed known) (hh : P.Holds i (f.code link i)) :
    ∀ r ∈ f.releases i, r.At P := by
  obtain ⟨-, hbody, hend⟩ := function_pieces hh
  have counts := hw.counts
  rw [Function.releases]
  simp only [List.mem_append, List.mem_singleton]
  rintro r (hr | rfl)
  · exact stmtsReleases_at hl segment f.body hw.body counts hbody r hr
  · have after := (counts.less (Nat.le_refl (declaredIn f.body + 0))).after
    rw [Nat.zero_add] at after
    exact ⟨_, after.toInt_frameSize, hend⟩

theorem functionsReleases_at {all : List String} (hl : P.Links link all)
    (segment : P.base.toNat + P.image.length ≤ segmentSize)
    (fs : List Function) {known : List String} {i : Nat} (hw : functionsWellFormed known fs)
    (hk : ∀ name ∈ known, name ∈ all)
    (hf : ∀ name ∈ fs.map Function.name, name ∈ all) (hh : P.Holds i (functionsCode link i fs)) :
    ∀ r ∈ functionsReleases i fs, r.At P := by
  induction fs generalizing known i with
  | nil => exact fun r hr => absurd hr List.not_mem_nil
  | cons f fs ih =>
    obtain ⟨hcode, hrest⟩ := hh.append
    rw [Function.length_code] at hrest
    obtain ⟨hfirst, hothers⟩ := List.forall_mem_cons.1 hf
    have known' : ∀ name ∈ f.name :: known, name ∈ all := List.forall_mem_cons.2 ⟨hfirst, hk⟩
    rw [functionsReleases]
    simp only [List.mem_append]
    rintro r (hr | hr)
    · exact f.releases_at (hl.mono known') segment hw.1.2 hcode r hr
    · exact ih hw.2 known' hothers hrest r hr

namespace Program

theorem releases_at {p : Program} {base : UInt16} {entryPoint : String} (hw : p.WellFormed entryPoint)
    (segment : base.toNat + p.size ≤ segmentSize) :
    ∀ r ∈ p.releases, r.At (p.placement base (p.code base entryPoint)) := by
  have whole : (p.placement base (p.code base entryPoint)).Holds 0 (p.code base entryPoint) :=
    ⟨[], [], (List.append_nil _).symm, rfl⟩
  have behind := whole.append.2
  rw [length_encodeAll_stub, Nat.zero_add] at behind
  refine functionsReleases_at (links_placement _ hw.distinct segment) ?_ p.functions
    ((wellFormed_iff p entryPoint).1 hw).1
    (fun _ hn => absurd hn List.not_mem_nil) (fun _ hn => hn) behind
  show base.toNat + (p.code base entryPoint).length ≤ segmentSize
  rwa [length_code]

/-- On any tree lowering gives an image that releases exactly what was taken, or refuses the tree; and
    never for want of a frame. -/
theorem lower_safe {options : Options} {g : Generator} (created : Generator.create options = .ok g) (p : Program)
    (entryPoint : String) :
    (∃ g', p.lower entryPoint g = .ok () g' ∧
        ∀ r ∈ p.releases, r.At (p.placement options.loadBase g'.image.bytes.toList)) ∨
      ∃ e g', p.lower entryPoint g = .error (.rejected e) g' ∧ e ≠ .noActiveScope := by
  obtain ⟨rfl, layout⟩ := Generator.of_create created
  have gives := p.gives_lower options.loadBase options.capacity entryPoint (by omega) #[]
  rcases ((Call.program p entryPoint).effect { image := ⟨#[], options.loadBase, options.capacity⟩ }).2 with
    ⟨run, -⟩ | ⟨e, run, -, he⟩
  · by_cases ok : p.WellFormed entryPoint ∧ p.size ≤ options.capacity
    · obtain ⟨events, h⟩ := gives.1 ok
      refine .inl ⟨_, h, ?_⟩
      have bytes : (p.placed options.loadBase options.capacity
          ((p.link options.loadBase).entry entryPoint)).image.bytes.toList =
          p.code options.loadBase entryPoint := by
        simp only [placed, Generator.extend, Array.toList_appendList]
        rfl
      show ∀ r ∈ p.releases, r.At (p.placement options.loadBase
        (p.placed options.loadBase options.capacity ((p.link options.loadBase).entry entryPoint)).image.bytes.toList)
      rw [bytes]
      exact releases_at ok.1 (by omega)
    · obtain ⟨e, g', h⟩ := gives.2 ok
      exact absurd (run.symm.trans h) (by simp)
  · exact .inr ⟨e, _, run, he⟩

/-- A function that returns before and behind a declaration, and a call among the arguments of another. -/
theorem lower_safe_nested_call :
    let int : Ty := ⟨.int, 0⟩
    let p : Program := ⟨[⟨"f", int, [], [.declare int "x", .ret (.int 1), .declare int "y"]⟩,
      ⟨"main", int, [], [.ret (.call "f" [.int 1, .call "f" [.int 2]])]⟩]⟩
    p.releases = [.epilogue 18 2, .epilogue 26 4, .call 41 2, .call 54 4, .epilogue 59 0, .epilogue 64 0] ∧
      ∃ g g', Generator.create {} = .ok g ∧ p.lower "main" g = .ok () g' ∧
        ∀ r ∈ p.releases, r.At (p.placement 0x100 g'.image.bytes.toList) := by
  intro int p
  have created : Generator.create {} = .ok _ := create_eq_ok (by decide)
  refine ⟨by decide +kernel, ?_⟩
  rcases lower_safe created p "main" with ⟨g', run, released⟩ | ⟨e, g', run, -⟩
  · exact ⟨_, g', created, run, released⟩
  · obtain ⟨events, h⟩ := (p.gives_lower 0x100 0xff00 "main" (by decide) #[]).1 (by decide +kernel)
    exact absurd (h.symm.trans run) (by simp)

end Program

end DotCom
