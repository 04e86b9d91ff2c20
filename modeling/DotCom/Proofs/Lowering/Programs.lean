/-
  DotCom.Proofs.Lowering.Programs — lowering a program gives exactly its image.

  - `stmtsCode_congr`: code depends on the functions it calls and on no other.
  - `Program.compile_eq_code`, `Program.compile_refused`: a program that is well formed and has room
    compiles to its code, and any other is refused.
-/

import DotCom.Proofs.Lowering.Statements

namespace DotCom

/-! ## Code and the functions it is linked to -/

/-- Two links that agree on the functions in `known`. -/
structure Link.Agree (known : List String) (link link' : Link) : Prop where
  base : link.base = link'.base
  entry : ∀ name ∈ known, link.entry name = link'.entry name

variable {known : List String} {link link' : Link}

theorem Link.Agree.addr (h : link.Agree known link') (pos : Nat) : link.addr pos = link'.addr pos := by
  rw [Link.addr, Link.addr, h.base]

theorem Leaf.code_congr (h : link.Agree known link') (frame : Frame) (dst : Reg) (pos : Nat) (leaf : Leaf) :
    leaf.code link frame dst pos = leaf.code link' frame dst pos := by
  cases leaf with
  | var name => rfl
  | int value => rfl
  | str text => simp only [Leaf.code, h.addr]

mutual

theorem Expr.code_congr (h : link.Agree known link') (frame : Frame) (pos : Nat) (e : Expr)
    (hw : e.WellFormed frame known) : e.code link frame pos = e.code link' frame pos := by
  match e with
  | .ident _ | .int _ | .str _ => exact Leaf.code_congr h ..
  | .call name args =>
    rw [Expr.WellFormed] at hw
    by_cases hn : name = puts
    · subst hn
      match args with
      | [message] => simp only [Expr.code, if_true, message.code_congr h frame pos hw.2.1]
      | [] | _ :: _ :: _ => rfl
    · rw [if_neg hn] at hw
      rw [Expr.code_call hn, Expr.code_call hn, argsCode_congr h frame pos args hw.2, h.entry name hw.1]
  | .assign _ value => simp only [Expr.code, value.code_congr h frame pos hw.2]
  | .chain operands operators =>
    match operands with
    | [] => rfl
    | first :: rest =>
      simp only [Expr.code, first.code_congr h frame pos hw.2.2.1, tailCode_congr h frame _ operators rest hw.2.2.2]

theorem argsCode_congr (h : link.Agree known link') (frame : Frame) (pos : Nat) (args : List Expr)
    (hw : allWellFormed frame known args) : argsCode link frame pos args = argsCode link' frame pos args := by
  match args with
  | [] => rfl
  | arg :: args => simp only [argsCode, argsCode_congr h frame pos args hw.2, arg.code_congr h frame _ hw.1]

theorem tailCode_congr (h : link.Agree known link') (frame : Frame) (pos : Nat) (ops : List BinaryOp)
    (operands : List Expr) (hw : allWellFormed frame known operands) :
    tailCode link frame pos ops operands = tailCode link' frame pos ops operands := by
  match ops, operands with
  | op :: ops, operand :: operands =>
    have right : operand.rightCode link frame pos = operand.rightCode link' frame pos := by
      unfold Expr.rightCode
      split
      · exact Leaf.code_congr h ..
      · rw [operand.code_congr h frame (pos + 1) hw.1]
    simp only [tailCode_cons, right, tailCode_congr h frame _ ops operands hw.2]
  | [], [] | [], _ :: _ | _ :: _, [] => rfl

end

mutual

theorem Stmt.code_congr (h : link.Agree known link') (frame : Frame) (pos : Nat) (st : Stmt)
    (hw : st.WellFormed frame known) : st.code link frame pos = st.code link' frame pos := by
  match st with
  | .declare _ _ | .loop _ _ => rfl
  | .expr e => exact e.code_congr h frame pos hw
  | .ret e => simp only [Stmt.code, e.code_congr h frame pos hw]
  | .cond chain => simp only [Stmt.code, h.addr, chain.code_congr h frame pos _ hw]

theorem IfChain.code_congr (h : link.Agree known link') (frame : Frame) (pos : Nat) (exit : UInt16) (chain : IfChain)
    (hw : chain.WellFormed frame known) : chain.code link frame pos exit = chain.code link' frame pos exit := by
  match chain with
  | .branch guard body next =>
    simp only [IfChain.code, guard.code_congr h frame pos hw.1, stmtsCode_congr h frame _ body hw.2.1,
      next.code_congr h _ _ _ hw.2.2.2]
  | .otherwise body => exact stmtsCode_congr h frame pos body hw
  | .done => rfl

theorem stmtsCode_congr (h : link.Agree known link') (frame : Frame) (pos : Nat) (ss : List Stmt)
    (hw : stmtsWellFormed frame known ss) : stmtsCode link frame pos ss = stmtsCode link' frame pos ss := by
  match ss with
  | [] => rfl
  | st :: ss => simp only [stmtsCode, st.code_congr h frame pos hw.1, stmtsCode_congr h _ _ ss hw.2]

end

theorem Function.code_congr (h : link.Agree known link') (pos : Nat) (f : Function) (hw : f.WellFormed known) :
    f.code link pos = f.code link' pos := by
  simp only [Function.code, stmtsCode_congr h f.frame (pos + 3) f.body hw.body]

/-! ## Tables -/

/-- Later functions have names of their own, so they leave the entries of earlier ones. -/
theorem address?_tableAfter (base : UInt16) (table : FunctionTable) (pos : Nat) (fs : List Function) {name : String}
    (h : name ∉ fs.map Function.name) : (tableAfter base table pos fs).address? name = table.address? name := by
  induction fs generalizing table pos with
  | nil => rfl
  | cons f fs ih =>
    rw [List.map_cons, List.mem_cons, not_or] at h
    rw [tableAfter, ih _ _ h.2, FunctionTable.address?, List.lookup_cons, beq_eq_false_iff_ne.2 h.1]
    rfl

/-- What lowering asks of functions in turn. -/
def functionsWellFormed (known : List String) : List Function → Prop
  | [] => True
  | f :: fs => (f.name ∉ known ∧ f.WellFormed (f.name :: known)) ∧ functionsWellFormed (f.name :: known) fs

instance decFunctionsWellFormed :
    (known : List String) → (fs : List Function) → Decidable (functionsWellFormed known fs)
  | _, [] => .isTrue trivial
  | known, f :: fs => @instDecidableAnd _ _ inferInstance (decFunctionsWellFormed (f.name :: known) fs)

theorem not_mem_of_functionsWellFormed {known : List String} {fs : List Function} (h : functionsWellFormed known fs)
    {name : String} (hn : name ∈ known) : name ∉ fs.map Function.name := by
  induction fs generalizing known with
  | nil => exact List.not_mem_nil
  | cons f fs ih =>
    rw [List.map_cons, List.mem_cons, not_or]
    refine ⟨fun e => h.1.1 (e ▸ hn), ih h.2 (List.mem_cons_of_mem _ hn)⟩

/-! ## Functions -/

/-- The state with one more function, which stands at the next byte. -/
def Generator.define (s : Generator) (name : String) : Generator :=
  { s with functions := ⟨(name, s.link.addr s.image.size) :: s.functions.entries⟩ }

namespace Gen

theorem address?_eq_none_iff {table : FunctionTable} {name : String} :
    table.address? name = none ↔ name ∉ table.entries.map Prod.fst := by
  rw [← address?_isSome_iff, ← Option.isSome_iff_exists, Option.not_isSome_iff_eq_none]

theorem gives_define (s : Generator) (name : String) :
    Gives (onFunctions (FunctionTable.define name (s.link.addr s.image.size))) s (name ∉ s.known) ()
      (s.define name) := by
  intro events
  rw [Generator.known, ← address?_eq_none_iff]
  simp only [onFunctions, FunctionTable.define]
  cases ha : s.functions.address? name with
  | none => exact ⟨fun _ => ⟨events, rfl⟩, fun h => absurd rfl h⟩
  | some a => exact ⟨fun h => absurd h (Option.some_ne_none a), fun _ => ⟨_, _, rfl⟩⟩

/-- Frames are put on and taken off without a condition. -/
theorem gives_onFrames (s : Generator) {α : Type} (edit : EStateM Failure Frames α) {a : α} {frames : Frames}
    (h : edit s.frames = .ok a frames) : Gives (onFrames edit) s True a { s with frames } := by
  refine fun events => ⟨fun _ => ⟨events, ?_⟩, fun h => absurd trivial h⟩
  simp only [onFrames, h]

end Gen

open Gen

/-- What a function emits once its frame is open; `leave` closes it. -/
theorem Function.emits_inside (f : Function) {s : Generator} {rest : Frames} (h : Ready s f.frame rest)
    {leave : Gen Unit} (hl : ∀ t frame, Ready t frame rest → Emits leave t True () [] rest) :
    Emits (do emit (.push .bp); emit (.movReg .bp .sp); lowerStmts f.body; epilogue; leave) s
      (f.WellFormed s.known) () (f.code s.link s.image.size) rest := by
  have close : ∀ t frame, Ready t frame rest →
      Emits (do epilogue; leave) t True () (encodeAll (epilogueInstrs frame)) rest := fun t frame ht =>
    Emits.of ((emits_epilogue ht).seq fun _ h1 => hl _ _ (ht.extend h1)) and_self_iff (List.append_nil _)
  have bound : f.frame.allocated.toNat + 2 * declaredIn f.body ≤ Frame.maxAllocated ↔
      declaredIn f.body ≤ maxDeclared := by
    have : f.frame.allocated.toNat = 0 := rfl
    rw [this, Frame.maxAllocated, maxDeclared]
    omega
  refine Emits.of ((Emits.instr s _).seq fun _ h1 => (Emits.instr _ _).seq fun _ h2 =>
    (emits_stmts f.body ((h.extend h1).extend h2)).seq fun h3 h4 =>
      close _ _ (((h.extend h1).extend h2).enter (sound_after f.frame f.body h.sound h3.2) h4)) ?_ ?_
  · rw [true_and, true_and, and_true, bound]
    exact ⟨fun hw => ⟨hw.1, hw.2⟩, fun hw => ⟨hw.1, hw.2⟩⟩
  · simp only [Function.code, List.append_assoc, Generator.extend_link, Generator.size_extend, Nat.add_assoc]
    rfl

/-- Takes the frame of a function off again. -/
def leaveFunction : Gen Unit := do
  match ← onFrames Frames.pop with
  | some frame => report (.left frame.function frame.allocated.toNat)
  | none => pure ()

/-- Parameters are reported, if there are any. -/
def Function.reportParams (f : Function) : Gen Unit :=
  if f.params.isEmpty then pure () else report (.unboundParams f.name f.params.length)

theorem Function.lower_eq (f : Function) : f.lower = (do
    let start ← address
    onFunctions (FunctionTable.define f.name start)
    report (.entered f.name start)
    f.reportParams
    onFrames (Frames.push { function := f.name })
    emit (.push .bp)
    emit (.movReg .bp .sp)
    lowerStmts f.body
    epilogue
    leaveFunction) := by
  unfold Function.lower Function.reportParams
  cases f.params.isEmpty with
  | true => rfl
  | false => rfl

theorem emits_leaveFunction {s : Generator} {frame : Frame} {rest : Frames} (h : Ready s frame rest) :
    Emits leaveFunction s True () [] rest := by
  have pop : Gives (onFrames Frames.pop) s True (some frame) { s with frames := rest } :=
    gives_onFrames s _ (by rw [h.frames]; rfl)
  have done : { s with frames := rest } = s.extend [] rest := by simp only [Generator.extend, Array.appendList_nil]
  rw [done] at pop
  exact (pop.after (Gives.report _ _)).iff (by simp [h.room])

theorem Function.gives_lower (f : Function) (s : Generator) (room : s.Fits 0)
    (segment : s.image.capacity ≤ segmentSize) :
    Gives f.lower s (f.name ∉ s.known ∧ f.WellFormed (f.name :: s.known) ∧ s.Fits f.size) ()
      ((s.define f.name).extend (f.code (s.define f.name).link s.image.size) s.frames) := by
  let opened : Generator := { s.define f.name with frames := f.frame :: s.frames }
  have ready : Ready opened f.frame s.frames := ⟨rfl, Frame.Sound.start f.name, room, segment⟩
  have inside := f.emits_inside ready fun _ _ => emits_leaveFunction
  rw [Emits, Function.length_code] at inside
  have enter : Gives (onFrames (Frames.push { function := f.name })) (s.define f.name) True () opened :=
    gives_onFrames (s.define f.name) _ rfl
  unfold Function.lower
  refine Gives.after (Gives.address s) ((gives_define s f.name).bind fun _ => Gives.after (Gives.report _ _) ?_)
  cases f.params.isEmpty with
  | true => exact enter.after inside
  | false => exact Gives.after (Gives.report _ _) (enter.after inside)

/-- The state with the functions `fs` behind what there is. -/
def Generator.place (s : Generator) (fs : List Function) : Generator :=
  let table := tableAfter s.image.loadBase s.functions s.image.size fs
  { s.extend (functionsCode ⟨s.image.loadBase, table⟩ s.image.size fs) s.frames with functions := table }

/-- A function that was lowered under the table of its time has the code it has under the last one. -/
theorem Generator.place_cons {s : Generator} {f : Function} {fs : List Function}
    (hw : f.WellFormed (f.name :: s.known)) (hfs : functionsWellFormed (f.name :: s.known) fs) :
    ((s.define f.name).extend (f.code (s.define f.name).link s.image.size) s.frames).place fs = s.place (f :: fs) := by
  have agree : (s.define f.name).link.Agree (f.name :: s.known)
      ⟨s.image.loadBase, tableAfter s.image.loadBase (s.define f.name).functions (s.image.size + f.size) fs⟩ := by
    refine ⟨rfl, fun name hn => ?_⟩
    rw [Link.entry, Link.entry, address?_tableAfter _ _ _ _ (not_mem_of_functionsWellFormed hfs hn)]
    rfl
  rw [f.code_congr agree s.image.size hw]
  simp only [Generator.place, Generator.size_extend, Function.length_code, Generator.extend_functions,
    Generator.extend_loadBase]
  have bytes : ∀ cs ds : List UInt8, s.image.bytes ++ cs ++ ds = s.image.bytes ++ (cs ++ ds) := fun cs ds =>
    Array.ext' (by simp only [Array.toList_appendList, List.append_assoc])
  simp only [Generator.extend, functionsCode, tableAfter, ← bytes]
  rfl

theorem gives_functions (fs : List Function) (s : Generator) (room : s.Fits 0)
    (segment : s.image.capacity ≤ segmentSize) :
    Gives (lowerFunctions fs) s (functionsWellFormed s.known fs ∧ s.Fits (functionsSize fs)) () (s.place fs) := by
  induction fs generalizing s with
  | nil =>
    have : s.place [] = s := by simp only [Generator.place, functionsCode, tableAfter, Generator.extend_nil]
    rw [this]
    exact (Gives.pure s ()).iff (iff_of_true trivial ⟨trivial, room⟩)
  | cons f fs ih =>
    rw [lowerFunctions]
    let next := (s.define f.name).extend (f.code (s.define f.name).link s.image.size) s.frames
    have size : next.image.size = s.image.size + f.size := by rw [Generator.size_extend, Function.length_code]; rfl
    have fits : ∀ n, next.Fits n ↔ s.Fits (f.size + n) := fun n => by
      rw [Generator.Fits, Generator.Fits, size, Nat.add_assoc]
      rfl
    have all := (f.gives_lower s room segment).bind (f := fun _ => lowerFunctions fs) fun h =>
      ih next ((fits 0).2 h.2.2) segment
    refine Gives.iff (all.ends fun h => Generator.place_cons h.1.2.1 h.2.1) ?_
    rw [fits, functionsWellFormed, functionsSize]
    constructor
    · rintro ⟨⟨hn, hw, _⟩, hfs, hr⟩
      exact ⟨⟨⟨hn, hw⟩, hfs⟩, hr⟩
    · rintro ⟨⟨⟨hn, hw⟩, hfs⟩, hr⟩
      refine ⟨⟨hn, hw, ?_⟩, hfs, hr⟩
      rw [Generator.Fits] at hr ⊢
      omega

theorem functionsWellFormed_iff (known : List String) (fs : List Function) :
    functionsWellFormed known fs ↔ (fs.map Function.name).Nodup ∧ (∀ f ∈ fs, f.name ∉ known) ∧
      ∀ before f after, fs = before.reverse ++ f :: after →
        f.WellFormed ((f :: before).map Function.name ++ known) := by
  induction fs generalizing known with
  | nil =>
    refine iff_of_true trivial ⟨List.nodup_nil, fun f hf => absurd hf List.not_mem_nil, fun before f after h => ?_⟩
    exact absurd h.symm (List.append_ne_nil_of_right_ne_nil _ (List.cons_ne_nil _ _))
  | cons g fs ih =>
    rw [functionsWellFormed, ih, List.map_cons, List.nodup_cons]
    constructor
    · rintro ⟨⟨hg, hw⟩, hd, hn, hs⟩
      refine ⟨⟨fun hm => ?_, hd⟩, fun f hf => ?_, fun before f after h => ?_⟩
      · obtain ⟨f, hf, e⟩ := List.mem_map.1 hm
        exact hn f hf (e ▸ List.mem_cons_self)
      · rcases List.mem_cons.1 hf with rfl | hf
        · exact hg
        · exact fun hk => hn f hf (List.mem_cons_of_mem _ hk)
      · rcases List.eq_nil_or_concat before with rfl | ⟨before, x, rfl⟩
        · obtain ⟨rfl, rfl⟩ := List.cons.inj h
          exact hw
        · rw [List.concat_eq_append, List.reverse_append] at h
          obtain ⟨rfl, hfs⟩ := List.cons.inj h
          simpa using hs before f after hfs
    · rintro ⟨⟨hg, hd⟩, hn, hs⟩
      refine ⟨⟨hn g List.mem_cons_self, hs [] g fs rfl⟩, hd, fun f hf hk => ?_, fun before f after h => ?_⟩
      · rcases List.mem_cons.1 hk with e | hk
        · exact hg (e ▸ List.mem_map_of_mem hf)
        · exact hn f (List.mem_cons_of_mem _ hf) hk
      · simpa using hs (before ++ [g]) f after (by simp [h])

theorem Program.wellFormed_iff (p : Program) (entryPoint : String) :
    p.WellFormed entryPoint ↔ functionsWellFormed [] p.functions ∧ entryPoint ∈ p.functions.map Function.name := by
  rw [functionsWellFormed_iff]
  constructor
  · rintro ⟨hd, he, hf⟩
    exact ⟨⟨hd, fun _ _ => List.not_mem_nil, fun b f a h => by simpa using hf b f a h⟩, he⟩
  · rintro ⟨⟨hd, -, hf⟩, he⟩
    exact ⟨hd, he, fun b f a h => by simpa using hf b f a h⟩

instance (p : Program) (entryPoint : String) : Decidable (p.WellFormed entryPoint) :=
  decidable_of_iff' _ (p.wellFormed_iff entryPoint)

/-- The functions of a table are those it had and those placed. -/
theorem mem_tableAfter (base : UInt16) (table : FunctionTable) (pos : Nat) (fs : List Function) (name : String) :
    name ∈ (tableAfter base table pos fs).entries.map Prod.fst ↔
      name ∈ fs.map Function.name ∨ name ∈ table.entries.map Prod.fst := by
  induction fs generalizing table pos with
  | nil => rw [tableAfter, List.map_nil, iff_false_intro List.not_mem_nil, false_or]
  | cons f fs ih =>
    rw [tableAfter, ih, List.map_cons, List.map_cons, List.mem_cons, List.mem_cons, or_assoc, or_left_comm]

/-! ## Programs -/

namespace Program

variable (p : Program) (base : UInt16) (capacity : Nat) (entryPoint : String)

/-- Lowering that has placed every function of a program behind a stub that calls `entry`. -/
def placed (entry : UInt16) : Generator :=
  Generator.extend { image := ⟨#[], base, capacity⟩, functions := (p.link base).functions }
    (encodeAll (stub entry) ++ functionsCode (p.link base) stubSize p.functions) []

/-- The last step of lowering points the stub at the entry point. -/
theorem gives_start :
    Gives (do
        match (← get).functions.address? entryPoint with
        | none => reject (.missingEntryPoint entryPoint)
        | some start =>
          patch ⟨1, .word⟩ start
          report (.finished (← position)))
      (p.placed base capacity 0) (entryPoint ∈ p.functions.map Function.name) ()
      (p.placed base capacity ((p.link base).entry entryPoint)) := by
  have mem : entryPoint ∈ p.functions.map Function.name ↔
      ∃ a, (p.link base).functions.address? entryPoint = some a := by
    rw [address?_isSome_iff, link, mem_tableAfter]
    simp
  refine Gives.read fun events => ?_
  have table : (p.placed base capacity 0).functions = (p.link base).functions := rfl
  simp only [table, mem, Link.entry]
  cases h : (p.link base).functions.address? entryPoint with
  | none => exact (Gives.reject _ _ () _).iff (by simp)
  | some start =>
    have fix := gives_patch { image := ⟨#[], base, capacity⟩, functions := (p.link base).functions } [] ⟨1, .word⟩ start
      [0xb8] [0, 0] (encodeAll [.callReg .ax, .dosCall .exit] ++
        functionsCode (p.link base) stubSize p.functions) rfl rfl rfl
    refine Gives.iff (fix.after (Gives.after (Gives.position _) (Gives.report _ _))) (by simp)

theorem gives_lower (segment : capacity ≤ segmentSize) :
    Gives (p.lower entryPoint) { image := ⟨#[], base, capacity⟩ } (p.WellFormed entryPoint ∧ p.size ≤ capacity) ()
      (p.placed base capacity ((p.link base).entry entryPoint)) := by
  let empty : Generator := { image := ⟨#[], base, capacity⟩ }
  let behind : Generator := empty.extend (encodeAll (stub 0)) []
  have placed : behind.place p.functions = p.placed base capacity 0 := by
    have size : behind.image.size = stubSize := by rw [Generator.size_extend]; rfl
    have both := empty.extend_extend (encodeAll (stub 0)) (functionsCode (p.link base) stubSize p.functions) [] []
    calc behind.place p.functions
        = { behind.extend (functionsCode (p.link base) stubSize p.functions) [] with
            functions := (p.link base).functions } := by
          simp only [Generator.place, size]
          rfl
      _ = p.placed base capacity 0 := by
          rw [both]
          rfl
  have functions : behind.Fits 0 → Gives (lowerFunctions p.functions) behind
      (functionsWellFormed [] p.functions ∧ behind.Fits (functionsSize p.functions)) () (p.placed base capacity 0) :=
    fun room => placed ▸ gives_functions p.functions behind room segment
  refine Gives.after (Gives.report empty _) ?_
  refine Gives.iff (Gives.bind (emits_emitFixup empty (.movImm .ax 0) .word (by decide)) fun h1 =>
    Gives.bind (Emits.instr _ (.callReg .ax)) fun h2 => Gives.bind (Emits.instr _ (.dosCall .exit)) fun h3 =>
      Gives.bind (functions (Generator.fits_extend _ h3.2)) fun _ => p.gives_start base capacity entryPoint) ?_
  rw [Program.wellFormed_iff]
  have size : ∀ n, behind.Fits n ↔ stubSize + n ≤ capacity := fun n => by
    rw [Generator.Fits, Generator.size_extend]
    exact Iff.of_eq (congrArg (· + n ≤ capacity) (Nat.zero_add _))
  rw [size, ← Program.size]
  constructor
  · rintro ⟨-, -, -, ⟨hf, hr⟩, he⟩
    exact ⟨⟨hf, he⟩, hr⟩
  · rintro ⟨⟨hf, he⟩, hr⟩
    have room : stubSize ≤ capacity := Nat.le_trans (Nat.le_add_right _ _) hr
    refine ⟨⟨trivial, Nat.le_trans ?_ room⟩, ⟨trivial, Nat.le_trans ?_ room⟩, ⟨trivial, Nat.le_trans ?_ room⟩,
      ⟨hf, hr⟩, he⟩
    all_goals exact Nat.le_of_ble_eq_true rfl

theorem create_eq_ok {options : Options} (layout : options.loadBase.toNat + options.capacity ≤ segmentSize) :
    Generator.create options = .ok { image := ⟨#[], options.loadBase, options.capacity⟩ } := by
  have wide : ¬ Image.maxSize < options.loadBase.toNat + options.capacity := by
    rw [segmentSize] at layout
    rw [Image.maxSize]
    omega
  simp only [Generator.create, Image.create, if_neg wide, if_neg (Nat.not_lt.2 layout)]
  rfl

theorem create_eq_error {options : Options} (big : ¬ options.loadBase.toNat + options.capacity ≤ segmentSize) :
    ∃ e, Generator.create options = .error e := by
  by_cases wide : Image.maxSize < options.loadBase.toNat + options.capacity
  · exact ⟨.crashed, by rw [Generator.create, Image.create, if_pos wide]; rfl⟩
  · exact ⟨_, by rw [Generator.create, Image.create, if_neg wide, if_pos (Nat.lt_of_not_le big)]; rfl⟩

/-- What compilation keeps of a run of lowering: the bytes, or the failure. -/
def imageOf : EStateM.Result Failure Generator Unit → Except Failure (Array UInt8)
  | .ok _ g => .ok g.image.bytes
  | .error e _ => .error e

theorem compile_eq_bind (p : Program) (options : Options) :
    p.compile options = (Generator.create options).bind fun g => imageOf (p.lower options.entryPoint g) := by
  rw [compile, compileLogged]
  cases Generator.create options with
  | error e => rfl
  | ok g =>
    show _ = imageOf (p.lower options.entryPoint g)
    dsimp only
    cases p.lower options.entryPoint g with
    | ok a g => rfl
    | error e g => rfl

/-- Where the layout is accepted, compiling is lowering. -/
theorem compile_eq_lower {p : Program} {options : Options}
    (layout : options.loadBase.toNat + options.capacity ≤ segmentSize) :
    p.compile options =
      imageOf (p.lower options.entryPoint { image := ⟨#[], options.loadBase, options.capacity⟩ }) := by
  rw [compile_eq_bind, create_eq_ok layout]
  rfl

theorem lower_of_compile_error {p : Program} {options : Options} {f : Failure} (h : p.compile options = .error f)
    (layout : options.loadBase.toNat + options.capacity ≤ segmentSize) :
    ∃ g, p.lower options.entryPoint { image := ⟨#[], options.loadBase, options.capacity⟩ } = .error f g := by
  rw [compile_eq_lower layout] at h
  cases run : p.lower options.entryPoint { image := ⟨#[], options.loadBase, options.capacity⟩ } with
  | ok _ g =>
    rw [run] at h
    cases h
  | error e g =>
    rw [run] at h
    cases h
    exact ⟨g, rfl⟩

/-- A program that is well formed and has room compiles to its code. -/
theorem compile_eq_code {p : Program} {options : Options}
    (layout : options.loadBase.toNat + options.capacity ≤ segmentSize)
    (hw : p.WellFormed options.entryPoint) (hr : p.size ≤ options.capacity) :
    p.compile options = .ok (p.code options.loadBase options.entryPoint).toArray := by
  obtain ⟨events, h⟩ := (p.gives_lower options.loadBase options.capacity options.entryPoint (by omega) #[]).1 ⟨hw, hr⟩
  rw [compile_eq_lower layout, h]
  refine congrArg Except.ok (Array.ext' ?_)
  simp only [placed, Generator.extend, Array.toList_appendList]
  rfl

/-- Any other program is refused, for a reason that is reported. -/
theorem compile_refused {p : Program} {options : Options}
    (layout : options.loadBase.toNat + options.capacity ≤ segmentSize)
    (h : ¬ (p.WellFormed options.entryPoint ∧ p.size ≤ options.capacity)) :
    ∃ e, p.compile options = .error (.rejected e) := by
  obtain ⟨e, g, h⟩ := (p.gives_lower options.loadBase options.capacity options.entryPoint (by omega) #[]).2 h
  refine ⟨e, ?_⟩
  rw [compile_eq_lower layout, h]
  rfl

/-- The options of a program that compiles keep its image in one segment. -/
theorem layout_of_compile {p : Program} {options : Options} {image : Array UInt8} (h : p.compile options = .ok image) :
    options.loadBase.toNat + options.capacity ≤ segmentSize := by
  refine Decidable.byContradiction fun big => ?_
  obtain ⟨e, he⟩ := create_eq_error big
  rw [compile, compileLogged, he] at h
  exact nomatch h

theorem of_compile {p : Program} {options : Options} {image : Array UInt8} (h : p.compile options = .ok image) :
    p.WellFormed options.entryPoint ∧ p.size ≤ options.capacity ∧
      image.toList = p.code options.loadBase options.entryPoint := by
  have layout := layout_of_compile h
  by_cases ok : p.WellFormed options.entryPoint ∧ p.size ≤ options.capacity
  · rw [compile_eq_code layout ok.1 ok.2, Except.ok.injEq] at h
    exact ⟨ok.1, ok.2, by rw [← h]⟩
  · obtain ⟨e, he⟩ := compile_refused layout ok
    rw [he] at h
    exact nomatch h

/-- Compilation accepts exactly the well-formed programs that have room, and refuses every other
    with an error of its own. -/
theorem compiles_iff_wellFormed (p : Program) (options : Options)
    (layout : options.loadBase.toNat + options.capacity ≤ segmentSize) :
    ((∃ image, p.compile options = .ok image) ↔ p.WellFormed options.entryPoint ∧ p.size ≤ options.capacity) ∧
      ((∃ e, p.compile options = .error (.rejected e)) ↔
        ¬ (p.WellFormed options.entryPoint ∧ p.size ≤ options.capacity)) := by
  by_cases ok : p.WellFormed options.entryPoint ∧ p.size ≤ options.capacity
  · have h := compile_eq_code layout ok.1 ok.2
    refine ⟨iff_of_true ⟨_, h⟩ ok, iff_of_false ?_ (not_not_intro ok)⟩
    rintro ⟨e, he⟩
    rw [h] at he
    exact nomatch he
  · obtain ⟨e, he⟩ := compile_refused layout ok
    refine ⟨iff_of_false ?_ ok, iff_of_true ⟨e, he⟩ ok⟩
    rintro ⟨image, h⟩
    rw [he] at h
    exact nomatch h

/-- A program with a call, a literal, and a declaration inside a branch that is used behind it. -/
def sample : Program :=
  let int : Ty := ⟨.int, 0⟩
  ⟨[⟨"three", int, [], [.declare int "x", .expr (.assign "x" (.int 3)), .ret (.ident "x")]⟩,
    ⟨"main", int, [],
      [.declare int "n", .expr (.assign "n" (.call "three" [])),
        .cond (.branch (.chain [.ident "n", .int 3] [.eq])
          [.declare int "y", .expr (.assign "y" (.int 4)), .expr (.call "puts" [.str "hi"])]
          (.otherwise [.ret (.int 1)])),
        .ret (.chain [.ident "n", .int 2, .ident "y"] [.mul, .add])]⟩]⟩

/-- One byte of capacity decides about the sample. -/
theorem sample_compiles_iff_wellFormed :
    ({ capacity := sample.size } : Options).loadBase.toNat + sample.size ≤ segmentSize ∧
      (∃ image, sample.compile { capacity := sample.size } = .ok image) ∧
      ∃ e, sample.compile { capacity := sample.size - 1 } = .error (.rejected e) :=
  ⟨by decide +kernel,
    (compiles_iff_wellFormed sample { capacity := sample.size } (by decide +kernel)).1.2 (by decide +kernel),
    (compiles_iff_wellFormed sample { capacity := sample.size - 1 } (by decide +kernel)).2.2 (by decide +kernel)⟩

end Program

end DotCom
