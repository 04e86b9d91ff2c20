/-
  DotCom.Proofs.Lowering.Pairs — lowering two programs of one shape side by side, whatever the comparison.
  This is the one place where two runs are followed through the trees.

  - `Comparison.Trees`: what the comparison asks of two trees.
  - `Program.paired_lower`: the two runs on whole programs.
  - `Comparison.elsewhere`: the same program for two places in memory. What is emitted may differ in its
    bytes, but not in its length, and where one run is refused the other is for the same reason.
-/

import DotCom.Proofs.Lowering.Comparison
import DotCom.Proofs.Parsing.Expressible

namespace DotCom

/-! ## Trees -/

/-- Trees of one shape. They are the same if the errors have to be, and expressible if there may be no
    malformed chains: a chain that was read has one operand more than operators. -/
structure Comparison.Trees {τ : Type} (C : Comparison) (renamed : τ → τ → Prop) (expressible : τ → Prop) (t t' : τ) :
    Prop where
  renamed : renamed t t'
  same : C.exact → t = t'
  sound : C.chains ∨ expressible t

variable {α : Type} {C : Comparison} {n : Nat} {φ : Phase} {V : String → String → Prop}

namespace Comparison.Trees

variable {τ σ : Type} {R : τ → τ → Prop} {P : τ → Prop} {S : σ → σ → Prop} {Q : σ → Prop}

/-- Parts of trees. -/
theorem part {t t' : τ} {s s' : σ} (h : C.Trees R P t t') (renamed : S s s') (same : t = t' → s = s')
    (sound : P t → Q s) : C.Trees S Q s s' :=
  ⟨renamed, fun exact => same (h.same exact), h.sound.imp_right sound⟩

variable {t t' : τ} {ts ts' : List τ}

theorem head (h : C.Trees (List.Forall₂ R) (∀ t ∈ ·, P t) (t :: ts) (t' :: ts')) : C.Trees R P t t' :=
  h.part (List.forall₂_cons.1 h.renamed).1 (fun e => (List.cons.inj e).1) fun hp => (List.forall_mem_cons.1 hp).1

theorem tail (h : C.Trees (List.Forall₂ R) (∀ t ∈ ·, P t) (t :: ts) (t' :: ts')) :
    C.Trees (List.Forall₂ R) (∀ t ∈ ·, P t) ts ts' :=
  h.part (List.forall₂_cons.1 h.renamed).2 (fun e => (List.cons.inj e).2) fun hp => (List.forall_mem_cons.1 hp).2

end Comparison.Trees

/-- What is asked of two expressions in functions whose variables correspond by `V`. -/
abbrev Comparison.Exprs (C : Comparison) (V : String → String → Prop) : Expr → Expr → Prop :=
  C.Trees (Expr.Renamed C.names V) Expr.Expressible

abbrev Comparison.ExprLists (C : Comparison) (V : String → String → Prop) : List Expr → List Expr → Prop :=
  C.Trees (List.Forall₂ (Expr.Renamed C.names V)) (∀ e ∈ ·, e.Expressible)

abbrev Comparison.Chains (C : Comparison) (V : String → String → Prop) : IfChain → IfChain → Prop :=
  C.Trees (IfChain.Renamed C.names V) IfChain.Expressible

abbrev Comparison.StmtLists (C : Comparison) (V : String → String → Prop) : List Stmt → List Stmt → Prop :=
  C.Trees (List.Forall₂ (Stmt.Renamed C.names V)) (∀ s ∈ ·, s.Expressible)

abbrev Comparison.Functions (C : Comparison) : List Function → List Function → Prop :=
  C.Trees (List.Forall₂ (Function.Renamed C.names)) (∀ f ∈ ·, f.Expressible)

/-- The same functions in both runs. -/
theorem Comparison.Functions.refl (h : ∀ f, C.names f f) {fs : List Function}
    (sound : C.chains ∨ ∀ f ∈ fs, f.Expressible) :
    C.Functions fs fs :=
  ⟨List.forall₂_same.2 fun f _ => .refl h f, fun _ => rfl, sound⟩

namespace Gen

/-! ## Leaves and operators -/

theorem paired_loadString (dst : Reg) (text : String) : C.Steps n φ φ (loadString dst text) (loadString dst text) := by
  unfold loadString
  cases latin1 text.toList with
  | error c => exact .reject (.same rfl (fun _ => rfl) trivial)
  | ok chars =>
    dsimp only
    cases jumpOver? (chars ++ [DosFunction.sentinel]).length with
    -- The one place where the capacity is looked at: for the error that names it.
    | none =>
      refine paired_position.bind fun m a b _ ends => .read fun g h states => ?_
      rw [ends.1, ends.2]
      exact .reject (.overflow _ (C.capacity states.image))
    | some jump =>
      refine (paired_emit jump).seq fun _ _ => paired_address.bind fun _ a b _ start => ?_
      exact (paired_report _ _).seq fun _ _ => (paired_bytes (.refl _)).forget.seq fun _ _ => paired_movImm dst start

theorem paired_loadVar (hV : OneToOne V) (dst : Reg) {x y : String} (hxy : V x y) (same : C.exact → x = y) :
    C.Steps n (.inside V) (.inside V) (load dst (.var x)) (load dst (.var y)) := by
  refine paired_frame.bind fun _ fr fr' _ tops => (paired_displacement hV tops hxy same).bind fun _ a b _ disp => ?_
  rw [disp]
  exact paired_emit _

theorem paired_loadInt (dst : Reg) (value : Int) :
    C.Steps n φ φ (load dst (.int value)) (load dst (.int value)) := by
  rw [load]
  cases immediate? value with
  | some word => exact paired_emit _
  | none => exact .reject (.same rfl (fun _ => rfl) trivial)

theorem paired_apply (op : BinaryOp) : C.Steps n (.inside V) (.inside V) (apply op) (apply op) := by
  unfold apply
  cases op.code? with
  | some code => exact paired_emitAll code
  | none =>
    refine paired_frame.bind fun _ _ _ _ tops => .reject ?_
    exact tops.errors (e := .unsupportedOperator) (fun _ _ _ _ => rfl) (fun _ _ => trivial) fun _ => rfl

end Gen

open Gen

/-! ## Expressions -/

/-- What brings the right operand into `bx`, given how the operand is lowered. -/
theorem Expr.paired_right (hV : OneToOne V) {e e' : Expr} (h : C.Exprs V e e')
    (he : ∀ m, C.Steps m (.inside V) (.inside V) e.lower e'.lower) :
    C.Steps n (.inside V) (.inside V) e.lowerRight e'.lowerRight := by
  cases h.renamed with
  | ident hxy => exact paired_loadVar hV .bx hxy fun exact => Expr.ident.inj (h.same exact)
  | int value => exact paired_loadInt .bx value
  | str text => exact paired_loadString .bx text
  | call _ _ | assign _ _ | chain _ _ =>
    exact (paired_emit _).seq fun _ _ => (he _).seq fun _ _ => (paired_emit _).seq fun _ _ => paired_emit _

mutual

theorem Expr.paired_lower (hV : OneToOne V) : (n : Nat) → (e : Expr) → {e' : Expr} → C.Exprs V e e' →
    C.Steps n (.inside V) (.inside V) e.lower e'.lower
  | _, .ident x, _, h => by
    cases h.renamed with
    | ident hxy => exact paired_loadVar hV .ax hxy fun exact => Expr.ident.inj (h.same exact)
  | _, .int value, _, h => by
    cases h.renamed
    exact paired_loadInt .ax value
  | _, .str text, _, h => by
    cases h.renamed
    exact paired_loadString .ax text
  | _, .call f args, .call f' args', h => by
    obtain ⟨hf, ha⟩ : C.names f f' ∧ List.Forall₂ (Expr.Renamed C.names V) args args' := by
      cases h.renamed with
      | call hf ha => exact ⟨hf, ha⟩
    have parts : C.ExprLists V args args' := h.part ha (fun e => (Expr.call.inj e).2) fun
      | .call _ hp => hp
    have same (exact : C.exact) : f = f' := (Expr.call.inj (h.same exact)).1
    have length := ha.length_eq
    by_cases hn : f = puts
    · obtain rfl := (C.builtin hf).1 hn
      subst hn
      match args, args', parts with
      | [message], [message'], parts =>
        refine (message.paired_lower hV _ parts.head).seq fun _ _ => (paired_emit _).seq fun _ _ => paired_emit _
      | [], [], _ => exact .reject (.same rfl (fun _ => rfl) trivial)
      | _ :: _ :: _, _ :: _ :: _, _ => exact .reject (.same rfl (fun _ => by rw [length]) trivial)
    · rw [Expr.lower.eq_def, Expr.lower.eq_def]
      simp only [if_neg hn, if_neg (mt (C.builtin hf).2 hn)]
      refine (paired_callee hf same).bind fun _ v w _ address => (paired_lowerArgs hV _ args parts).seq fun _ _ => ?_
      refine (paired_movImm .ax address).seq fun _ _ => (paired_emit _).seq fun _ _ => ?_
      rw [length]
      exact paired_emit _
  | _, .assign x value, .assign y value', h => by
    obtain ⟨hxy, hv⟩ : V x y ∧ value.Renamed C.names V value' := by
      cases h.renamed with
      | assign hxy hv => exact ⟨hxy, hv⟩
    have part : C.Exprs V value value' := h.part hv (fun e => (Expr.assign.inj e).2) fun
      | .assign _ hp => hp
    have same (exact : C.exact) : x = y := (Expr.assign.inj (h.same exact)).1
    rw [Expr.lower, Expr.lower]
    refine paired_frame.bind fun _ fr fr' _ tops => (paired_displacement hV tops hxy same).bind fun _ a b _ disp => ?_
    refine (value.paired_lower hV _ part).seq fun _ _ => ?_
    rw [disp]
    exact paired_emit _
  | _, .chain operands operators, .chain operands' operators', h => by
    obtain ⟨rfl, ho⟩ : operators = operators' ∧ List.Forall₂ (Expr.Renamed C.names V) operands operands' := by
      cases h.renamed with
      | chain _ ho => exact ⟨rfl, ho⟩
    have parts : C.ExprLists V operands operands' := h.part ho (fun e => (Expr.chain.inj e).1) fun
      | .chain _ _ _ _ hp => hp
      | .subscript he hi => by simp [he, hi]
    have length := ho.length_eq
    rw [Expr.lower.eq_def, Expr.lower.eq_def]
    refine paired_frame.bind fun _ fr fr' _ tops => ?_
    rw [← length]
    by_cases hl : operands.length = operators.length + 1
    · simp only [hl, ne_eq, not_true, if_false]
      match operands, operands', parts with
      | first :: rest, first' :: rest', parts =>
        exact (first.paired_lower hV _ parts.head).seq fun _ _ => paired_lowerTail hV _ operators rest parts.tail
    · simp only [ne_eq, hl, not_false_iff, if_true]
      have chains : C.chains := h.sound.resolve_right fun
        | .chain _ hl' _ _ _ => hl hl'
        | .subscript _ _ => hl rfl
      have errors : C.Errors (.malformedChain operands.length operators.length fr.function)
          (.malformedChain operands.length operators.length fr'.function) :=
        .same rfl (fun exact => by rw [tops.function exact]) chains
      exact .stops errors

theorem paired_lowerArgs (hV : OneToOne V) : (n : Nat) → (es : List Expr) → {es' : List Expr} → C.ExprLists V es es' →
    C.Steps n (.inside V) (.inside V) (lowerArgs es) (lowerArgs es')
  | _, [], [], _ => .pure fun _ _ => trivial
  | _, e :: es, e' :: es', h => by
    rw [lowerArgs, lowerArgs]
    refine (paired_lowerArgs hV _ es h.tail).seq fun _ _ => (e.paired_lower hV _ h.head).seq fun _ _ => ?_
    exact paired_emit _

theorem paired_lowerTail (hV : OneToOne V) : (n : Nat) → (ops : List BinaryOp) → (es : List Expr) → {es' : List Expr} →
    C.ExprLists V es es' → C.Steps n (.inside V) (.inside V) (lowerTail ops es) (lowerTail ops es')
  | _, [], _, _, _ => by
    rw [lowerTail, lowerTail]
    · exact .pure fun _ _ => trivial
    · simp
    · simp
  | _, _ :: _, [], [], _ => .pure fun _ _ => trivial
  | _, op :: ops, e :: es, e' :: es', h => by
    rw [lowerTail_cons, lowerTail_cons]
    refine (Expr.paired_right hV h.head fun m => e.paired_lower hV m h.head).seq fun _ _ => ?_
    exact (paired_apply op).seq fun _ _ => paired_lowerTail hV _ ops es h.tail

end

/-! ## Statements -/

theorem paired_epilogue : C.Steps n (.inside V) (.inside V) epilogue epilogue := by
  refine paired_frame.bind fun _ fr fr' _ tops => ?_
  have same : fr.frameSize = fr'.frameSize := by rw [Frame.frameSize, Frame.frameSize, tops.alike.allocated]
  rw [same]
  exact (paired_emit _).seq fun _ _ => (paired_emit _).seq fun _ _ => paired_emit _

theorem paired_declare (hV : OneToOne V) {ty ty' : Ty} {x y : String} (hxy : V x y)
    (sized : ty.size?.isSome = ty'.size?.isSome) (same : C.exact → ty = ty' ∧ x = y) :
    C.Steps n (.inside V) (.inside V) (declare ty x) (declare ty' y) := by
  have name (exact : C.exact) : x = y := (same exact).2
  refine paired_frame.bind fun _ fr fr' _ tops => (paired_ensureUndeclared hV tops hxy name).forget.seq fun _ _ => ?_
  have size : ty.size? = ty'.size? := by
    rw [Ty.size?_eq, Ty.size?_eq] at sized ⊢
    split at sized <;> split at sized <;> simp_all
  rw [← size, Ty.size?_eq]
  by_cases ht : ty.isInteger ∨ ty.isPointer
  · rw [if_pos ht]
    exact (paired_slot hV hxy name).bind fun _ _ _ _ _ => paired_emit _
  · rw [if_neg ht]
    refine .reject (.same rfl (fun exact => ?_) trivial)
    obtain ⟨rfl, rfl⟩ := same exact
    rfl

/-- The body behind a jump has been emitted since its start. -/
theorem paired_closeBody {skip : Fixup} {start : Nat} (hs : skip.Lies C.floor n) (le : start ≤ n) :
    C.Steps n (.inside V) (.inside V) (closeBody skip start) (closeBody skip start) := by
  have since : C.Paired n (.inside V) (.inside V) (fun a b _ => a = b) (sizeSince start) (sizeSince start) := by
    refine paired_position.bind fun m a b le' ends => ?_
    -- The image has not shrunk since `start`, so the difference is a size.
    rw [ends.1, ends.2, if_neg (by omega)]
    exact .pure fun _ _ => rfl
  refine since.bind fun m size _ le' same => ?_
  subst same
  by_cases hl : size ≤ 127
  · rw [if_pos hl]
    exact paired_patch (hs.later le') fun _ => rfl
  · rw [if_neg hl]
    refine paired_frame.bind fun _ _ _ _ tops => .reject (.same rfl (fun exact => ?_) trivial)
    rw [tops.function exact]

mutual

theorem Stmt.paired_lower (hV : OneToOne V) : (n : Nat) → (s : Stmt) → {s' : Stmt} →
    C.Trees (Stmt.Renamed C.names V) Stmt.Expressible s s' → C.Steps n (.inside V) (.inside V) s.lower s'.lower
  | _, .declare ty x, _, h => by
    cases h.renamed with
    | declare hxy sized => exact paired_declare hV hxy sized fun exact => Stmt.declare.inj (h.same exact)
  | _, .expr e, .expr e', h => by
    have part : C.Exprs V e e' := h.part (by cases h.renamed; assumption) Stmt.expr.inj fun
      | .expr hp => hp
    exact e.paired_lower hV _ part
  | _, .ret e, .ret e', h => by
    have part : C.Exprs V e e' := h.part (by cases h.renamed; assumption) Stmt.ret.inj fun
      | .ret hp => hp
    rw [Stmt.lower, Stmt.lower]
    exact (e.paired_lower hV _ part).seq fun _ _ => paired_epilogue
  | _, .cond chain, .cond chain', h => by
    have part : C.Chains V chain chain' := h.part (by cases h.renamed; assumption) Stmt.cond.inj fun
      | .cond hp => hp
    rw [Stmt.lower, Stmt.lower]
    refine (chain.paired_lower hV _ part).bind fun _ exits _ _ fixups => ?_
    obtain ⟨rfl, lie⟩ := fixups
    exact paired_address.bind fun _ _ _ le stop => paired_patchAll (fun f hf => (lie f hf).later le) stop
  | _, .loop _ _, _, h => by
    cases h.renamed
    rw [Stmt.lower, Stmt.lower]
    refine paired_frame.bind fun _ _ _ _ tops => .reject ?_
    exact tops.errors (e := .unsupportedStatement) (fun _ _ _ _ => rfl) (fun _ _ => trivial) fun _ => rfl

/-- The placeholders of a chain lie in its own code. -/
theorem IfChain.paired_lower (hV : OneToOne V) : (n : Nat) → (chain : IfChain) → {chain' : IfChain} →
    C.Chains V chain chain' →
      C.Paired n (.inside V) (.inside V) (fun exits exits' m => exits = exits' ∧ ∀ f ∈ exits, f.Lies C.floor m)
        chain.lower chain'.lower
  | _, .branch guard body next, .branch guard' body' next', h => by
    obtain ⟨hg, hb, hn⟩ : guard.Renamed C.names V guard' ∧ List.Forall₂ (Stmt.Renamed C.names V) body body' ∧
        next.Renamed C.names V next' := by
      cases h.renamed with
      | branch hg hb hn => exact ⟨hg, hb, hn⟩
    have first : C.Exprs V guard guard' := h.part hg (fun e => (IfChain.branch.inj e).1) fun
      | .branch hp _ _ => hp
    have second : C.StmtLists V body body' := h.part hb (fun e => (IfChain.branch.inj e).2.1) fun
      | .branch _ hp _ => hp
    have third : C.Chains V next next' := h.part hn (fun e => (IfChain.branch.inj e).2.2) fun
      | .branch _ _ hp => hp
    rw [IfChain.lower, IfChain.lower]
    refine (guard.paired_lower hV _ first).seq fun _ _ => (paired_emit _).seq fun _ _ => ?_
    refine (paired_emitFixup (by decide)).bind fun m₁ skip _ _ hskip => ?_
    obtain ⟨rfl, hskip⟩ := hskip
    refine paired_position.bind fun m₂ start start' le₂ ends => ?_
    obtain ⟨rfl, rfl⟩ := ends
    refine (paired_lowerStmts hV _ body second).seq fun m₃ le₃ => ?_
    refine (paired_emitFixup (by decide)).bind fun m₄ exit _ le₄ hexit => (paired_emit _).seq fun m₅ le₅ => ?_
    obtain ⟨rfl, hexit⟩ := hexit
    refine (paired_closeBody (hskip.later (by omega)) (by omega)).seq fun m₆ le₆ => ?_
    refine (next.paired_lower hV _ third).bind fun m₇ exits _ le₇ hexits => .pure fun m₈ le₈ => ?_
    obtain ⟨rfl, hexits⟩ := hexits
    exact ⟨rfl, List.forall_mem_cons.2 ⟨hexit.later (by omega), fun f hf => (hexits f hf).later le₈⟩⟩
  | _, .otherwise body, .otherwise body', h => by
    have part : C.StmtLists V body body' := h.part (by cases h.renamed; assumption) IfChain.otherwise.inj fun
      | .otherwise hp => hp
    rw [IfChain.lower, IfChain.lower]
    exact (paired_lowerStmts hV _ body part).seq fun _ _ => .pure fun _ _ => ⟨rfl, by simp⟩
  | _, .done, _, h => by
    cases h.renamed
    exact .pure fun _ _ => ⟨rfl, by simp⟩

theorem paired_lowerStmts (hV : OneToOne V) : (n : Nat) → (ss : List Stmt) → {ss' : List Stmt} → C.StmtLists V ss ss' →
    C.Steps n (.inside V) (.inside V) (lowerStmts ss) (lowerStmts ss')
  | _, [], [], _ => .pure fun _ _ => trivial
  | _, s :: ss, s' :: ss', h => by
    rw [lowerStmts, lowerStmts]
    exact (s.paired_lower hV _ h.head).seq fun _ _ => paired_lowerStmts hV _ ss h.tail

end

/-! ## Functions and programs -/

theorem Function.paired_reportParams (f f' : Function) : C.Steps n φ φ f.reportParams f'.reportParams := by
  unfold Function.reportParams
  cases f.params.isEmpty <;> cases f'.params.isEmpty <;>
    exact fun _ _ states reached => .ok ⟨states.image, states.functions, states.frames⟩ reached trivial

theorem Function.paired_lower {f f' : Function} (h : C.Trees (Function.Renamed C.names) Function.Expressible f f') :
    C.Steps n .outside .outside f.lower f'.lower := by
  obtain ⟨V, hV, hb⟩ := h.renamed.body
  have body : C.StmtLists V f.body f'.body := h.part hb (fun e => by rw [e]) fun hp => hp.body
  have name (exact : C.exact) : f.name = f'.name := by rw [h.same exact]
  rw [Function.lower_eq, Function.lower_eq]
  refine paired_address.bind fun _ start start' _ same => (paired_define h.renamed.name name same).seq fun _ _ => ?_
  refine (paired_report _ _).seq fun _ _ => (f.paired_reportParams f').seq fun _ _ => ?_
  refine (paired_enter (V := V) name).seq fun _ _ => (paired_emit _).seq fun _ _ => (paired_emit _).seq fun _ _ => ?_
  exact (paired_lowerStmts hV _ f.body body).seq fun _ _ => paired_epilogue.seq fun _ _ => paired_leaveFunction

theorem paired_lowerFunctions : {fs fs' : List Function} → C.Functions fs fs' → {n : Nat} →
    C.Steps n .outside .outside (lowerFunctions fs) (lowerFunctions fs')
  | [], [], _, _ => .pure fun _ _ => trivial
  | _ :: _, _ :: _, h, _ => (Function.paired_lower h.head).seq fun _ _ => paired_lowerFunctions h.tail

theorem Program.paired_lower {p p' : Program} (h : C.Functions p.functions p'.functions) {entry entry' : String}
    (he : C.names entry entry') (same : C.exact → entry = entry') :
    C.Steps n .outside .outside (p.lower entry) (p'.lower entry') := by
  refine (paired_report _ _).seq fun _ _ => (paired_emitFixup (by decide)).bind fun m₁ stub _ _ hstub => ?_
  obtain ⟨rfl, lies⟩ := hstub
  refine (paired_emit _).seq fun m₂ le₂ => (paired_emit _).seq fun m₃ le₃ => ?_
  refine (paired_lowerFunctions h).seq fun m₄ le₄ => .read fun g k states => ?_
  have lookup := C.lookup states.functions he
  generalize g.functions.address? entry = r at lookup ⊢
  generalize k.functions.address? entry' = s at lookup ⊢
  cases lookup with
  | none => exact .reject (.same rfl (fun exact => by rw [same exact]) trivial)
  | some start =>
    refine (paired_patch (lies.later (by omega)) start).seq fun _ _ => paired_position.bind fun _ _ _ _ _ => ?_
    exact paired_report _ _

/-! ## Another place in memory -/

/-- A name is in both of two tables with the same names, or in none of them. -/
theorem FunctionTable.rel_address? {t u : FunctionTable} (h : t.entries.map Prod.fst = u.entries.map Prod.fst)
    (name : String) : Option.Rel (fun v w => False → v = w) (t.address? name) (u.address? name) := by
  have same : (∃ a, t.address? name = some a) ↔ ∃ b, u.address? name = some b := by
    rw [address?_isSome_iff, address?_isSome_iff, h]
  cases ht : t.address? name with
  | some a =>
    obtain ⟨b, hb⟩ := same.1 ⟨a, ht⟩
    rw [hb]
    exact .some False.elim
  | none =>
    cases hu : u.address? name with
    | some b =>
      obtain ⟨a, ha⟩ := same.2 ⟨b, hu⟩
      rw [ht] at ha
      cases ha
    | none => exact .none

/-- The same program for two places in memory: the images differ in their bytes and the functions in
    their addresses. -/
def Comparison.elsewhere (chains : Prop) : Comparison where
  names := Eq
  exact := True
  fixed := False
  chains := chains
  floor := 0
  below _ := True
  capacities := Eq
  images i j := i.size = j.size ∧ i.capacity = j.capacity
  tables t u := t.entries.map Prod.fst = u.entries.map Prod.fst
  builtin := @eq_puts_iff
  narrower := @capacity_le_of_eq
  size h := h.1
  low _ := Nat.zero_le _
  capacity h := h.2
  address _ h := h.elim
  append h chunks _ _ := ⟨by rw [Image.size_append, Image.size_append, h.1, chunks.length], h.2⟩
  overwrite h _ _ := ⟨by simpa only [Image.size, Image.size_overwrite] using h.1, h.2⟩
  lookup h hab := hab ▸ FunctionTable.rel_address? h _
  define h hab _ _ := by
    show _ :: _ = _ :: _
    rw [hab, h]

namespace Comparison

theorem elsewhere_refl (chains : Prop) (g : Generator) : (elsewhere chains).Related .outside g g :=
  ⟨⟨rfl, rfl⟩, rfl, trivial⟩

/-- Two runs succeed together, or are refused for the same reason. -/
theorem Paired.elsewhere {chains : Prop} {x y : Gen α} {ψ : Phase} {R : α → α → Nat → Prop}
    (h : (elsewhere chains).Paired 0 φ ψ R x y) {g k : Generator} (states : (elsewhere chains).Related φ g k) :
    (∃ a b g' k', x g = .ok a g' ∧ y k = .ok b k') ∨
      ∃ e g' k', x g = .error (.rejected e) g' ∧ y k = .error (.rejected e) k' ∧ e.Native chains := by
  rcases (h states (Nat.zero_le _)).together id with ⟨a, b, g', k', hx, hy, -⟩ | ⟨e, e', g', k', hx, hy, errors, -⟩
  · exact .inl ⟨a, b, g', k', hx, hy⟩
  · obtain rfl := errors.eq trivial id
    exact .inr ⟨e, g', k', hx, hy, errors.native⟩

end Comparison

theorem Program.lower_elsewhere {chains : Prop} (p : Program) (entryPoint : String) (sound : chains ∨ p.Expressible)
    {g k : Generator} (states : (Comparison.elsewhere chains).Related .outside g k) :
    (∃ g' k', p.lower entryPoint g = .ok () g' ∧ p.lower entryPoint k = .ok () k') ∨
      ∃ e g' k', p.lower entryPoint g = .error (.rejected e) g' ∧ p.lower entryPoint k = .error (.rejected e) k' ∧
        e.Native chains := by
  have runs : (Comparison.elsewhere chains).Steps 0 .outside .outside (p.lower entryPoint) (p.lower entryPoint) :=
    Program.paired_lower (.refl (fun _ => rfl) sound) rfl fun _ => rfl
  exact (runs.elsewhere states).imp_left fun ⟨_, _, g', k', hg, hk⟩ => ⟨g', k', hg, hk⟩

/-- A program that was read is refused for what it asks of the image, and not for the shape of a chain. -/
theorem Program.native_of_lower {p : Program} (h : p.Expressible) {entryPoint : String} {g g' : Generator}
    {e : CompileError} (failed : p.lower entryPoint g = .error (.rejected e) g') : e.Native False := by
  rcases p.lower_elsewhere entryPoint (.inr h) (Comparison.elsewhere_refl False g) with
    ⟨_, _, ok, -⟩ | ⟨_, _, _, same, -, native⟩
  · rw [failed] at ok
    cases ok
  · rw [failed] at same
    cases same
    exact native

end DotCom
