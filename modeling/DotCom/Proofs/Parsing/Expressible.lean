/-
  DotCom.Proofs.Parsing.Expressible — the programs that have a source text, said of their trees.

  - `IsProgram.expressible`: what the grammar derives from the symbols of a text is one of them.

  Parentheses make the tree of a phrase also that of a longer one, so the induction is on the number
  of symbols. Between two parentheses it follows the levels of the grammar.
-/

import DotCom.Proofs.Scanning

namespace DotCom

open Token (IsName)

/-! ## Trees -/

inductive Expr.Expressible : Expr → Prop
  | ident {name : String} : IsName name → Expressible (.ident name)
  | int {value : Int} : 0 ≤ value → value ≤ 0x7fffffffffffffff → Expressible (.int value)
  | str (text : String) : Expressible (.str text)
  | call {callee : String} {args : List Expr} :
      IsName callee → (∀ e ∈ args, Expressible e) → Expressible (.call callee args)
  | assign {target : String} {value : Expr} : IsName target → Expressible value → Expressible (.assign target value)
  | chain {operands : List Expr} {operators level : List BinaryOp} :
      operators ≠ [] → operands.length = operators.length + 1 → level ∈ BinaryOp.levels →
      (∀ op ∈ operators, op ∈ level) →
        (∀ e ∈ operands, Expressible e) → Expressible (.chain operands operators)
  | subscript {e index : Expr} : Expressible e → Expressible index → Expressible (.chain [e, index] [.subscript])

mutual

inductive Stmt.Expressible : Stmt → Prop
  | declare (ty : Ty) {name : String} : IsName name → Stmt.Expressible (.declare ty name)
  | expr {e : Expr} : e.Expressible → Stmt.Expressible (.expr e)
  | ret {e : Expr} : e.Expressible → Stmt.Expressible (.ret e)
  /-- An `if` has at least one branch. -/
  | cond {guard : Expr} {body : List Stmt} {next : IfChain} :
      IfChain.Expressible (.branch guard body next) → Stmt.Expressible (.cond (.branch guard body next))
  | loop {guard : Expr} {body : List Stmt} :
      guard.Expressible → (∀ s ∈ body, Stmt.Expressible s) → Stmt.Expressible (.loop guard body)

inductive IfChain.Expressible : IfChain → Prop
  | branch {guard : Expr} {body : List Stmt} {next : IfChain} :
      guard.Expressible → (∀ s ∈ body, Stmt.Expressible s) → IfChain.Expressible next →
        IfChain.Expressible (.branch guard body next)
  | otherwise {body : List Stmt} : (∀ s ∈ body, Stmt.Expressible s) → IfChain.Expressible (.otherwise body)
  | done : IfChain.Expressible .done

end

structure Function.Expressible (f : Function) : Prop where
  name : IsName f.name
  params : ∀ p ∈ f.params, IsName p.name
  body : ∀ s ∈ f.body, s.Expressible

def Program.Expressible (p : Program) : Prop := ∀ f ∈ p.functions, f.Expressible

namespace Grammar

/-! ## Parts of phrases -/

/-- All symbols of a phrase can stand in a text. -/
def Lexical (ws : List Symbol) : Prop := ∀ s ∈ ws, Token.Lexical s

theorem Lexical.part {vs ws : List Symbol} (h : Lexical ws) (hv : vs <:+: ws) : Lexical vs :=
  fun s hs => h s (hv.subset hs)

theorem infix_parens (ws : List Symbol) : ws <:+: parens ws := ⟨[.mark "("], [.mark ")"], rfl⟩

theorem infix_brackets (ws : List Symbol) : ws <:+: brackets ws := ⟨[.mark "["], [.mark "]"], rfl⟩

theorem infix_braces (ws : List Symbol) : ws <:+: braces ws := ⟨[.mark "\x7b"], [.mark "\x7d"], rfl⟩

section

variable {α : Type} {phrase : List Symbol → α → Prop} {ws : List Symbol} {xs : List α} {Q : α → Prop}

theorem Many.forall (h : Many phrase ws xs) (hq : ∀ vs x, vs <:+: ws → phrase vs x → Q x) : ∀ x ∈ xs, Q x := by
  induction h with
  | nil => simp
  | @snoc ws vs xs x _ hx ih =>
    have before := ih fun us y hu => hq us y (hu.trans (List.prefix_append ws vs).isInfix)
    have last := hq vs x (List.suffix_append ws vs).isInfix hx
    simpa [or_imp, forall_and] using ⟨before, last⟩

theorem Separated.forall {sep : List Symbol} (h : Separated sep phrase ws xs)
    (hq : ∀ vs x, vs <:+: ws → phrase vs x → Q x) : ∀ x ∈ xs, Q x := by
  induction h with
  | one hx => simpa using hq _ _ List.infix_rfl hx
  | @more ws vs xs x _ hx ih =>
    have front : ws <:+: ws ++ sep ++ vs := ((List.prefix_append ws sep).trans (List.prefix_append _ vs)).isInfix
    have before := ih fun us y hu => hq us y (hu.trans front)
    have last := hq vs x (List.suffix_append _ vs).isInfix hx
    simpa [or_imp, forall_and] using ⟨before, last⟩

theorem Listed.forall (h : Listed phrase ws xs) (hq : ∀ vs x, vs <:+: ws → phrase vs x → Q x) : ∀ x ∈ xs, Q x := by
  cases h with
  | none => simp
  | some h => exact h.forall hq

end

/-! ## Expressions -/

/-- Every expression of at most `n` symbols has an expressible tree. -/
def ExprsExpressible (n : Nat) : Prop := ∀ ws e, ws.length ≤ n → Lexical ws → IsExpr ws e → e.Expressible

section

variable {n : Nat} (hn : ExprsExpressible n)

include hn

theorem IsPrimary.expressible {ws : List Symbol} {e : Expr} (h : IsPrimary ws e) (hl : ws.length ≤ n + 1)
    (hw : Lexical ws) :
    e.Expressible := by
  cases h with
  | @parens ws e h => exact hn ws e (by simp [Grammar.parens] at hl; omega) (hw.part (infix_parens ws)) h
  | ident name => exact .ident (hw _ List.mem_cons_self)
  | number value => exact .int (hw _ List.mem_cons_self).1 (hw _ List.mem_cons_self).2
  | str text => exact .str text

theorem IsPostfix.expressible {ws : List Symbol} {e : Expr} :
    IsPostfix ws e → ws.length ≤ n + 1 → Lexical ws → e.Expressible
  | .primary h, hl, hw => h.expressible hn hl hw
  | @IsPostfix.call ws vs _ _ h hargs, hl, hw => by
    simp only [parens, List.length_append, List.length_cons] at hl
    cases h.expressible (by omega) (hw.part (List.prefix_append _ _).isInfix) with
    | ident name =>
      have inside : vs <:+: ws ++ parens vs := (infix_parens vs).trans (List.suffix_append _ _).isInfix
      refine .call name (hargs.forall fun us e hu => hn us e ?_ (hw.part (hu.trans inside)))
      have := hu.length_le
      omega
  | @IsPostfix.subscript ws vs _ _ h hindex, hl, hw => by
    simp only [brackets, List.length_append, List.length_cons] at hl
    have inside : vs <:+: ws ++ brackets vs := (infix_brackets vs).trans (List.suffix_append _ _).isInfix
    exact .subscript (h.expressible (by omega) (hw.part (List.prefix_append _ _).isInfix))
      (hn vs _ (by omega) (hw.part inside) hindex)

end

/-- Every operator behind the first operand of a level is one of the level, and its operand is expressible. -/
theorem IsTail.expressible {n : Nat} {level : Level} {tighter : List Level}
    (hb : ∀ ws e, IsBinary tighter ws e → ws.length ≤ n → Lexical ws → e.Expressible) {ws : List Symbol}
    {tail : List (BinaryOp × Expr)} :
    IsTail level tighter ws tail → ws.length ≤ n → Lexical ws → ∀ t ∈ tail, t.1 ∈ level.map Prod.snd ∧
    t.2.Expressible
  | .nil, _, _ => by simp
  | @IsTail.snoc _ _ ws vs tail mark op e h hm he, hl, hw => by
    simp only [List.length_append, List.length_cons] at hl
    have before := h.expressible hb (by omega) (hw.part (List.prefix_append _ _).isInfix)
    have inside : vs <:+: ws ++ .mark mark :: vs := ((List.suffix_cons _ vs).trans (List.suffix_append ws _)).isInfix
    have last := hb vs e he (by omega) (hw.part inside)
    intro t ht
    rcases List.mem_append.1 ht with ht | ht
    · exact before t ht
    · cases List.mem_singleton.1 ht
      exact ⟨List.mem_map.2 ⟨_, hm, rfl⟩, last⟩

theorem map_levels : levels.map (·.map Prod.snd) = BinaryOp.levels := rfl

theorem IsBinary.expressible {n : Nat} (hn : ExprsExpressible n) {lower : List Level} (hs : lower <:+ levels) :
    ∀ ws e, IsBinary lower ws e → ws.length ≤ n + 1 → Lexical ws → e.Expressible := by
  induction lower with
  | nil =>
    intro ws e h hl hw
    cases h with
    | postfixed h => exact h.expressible hn hl hw
  | cons level tighter ih =>
    intro ws e h hl hw
    have ih := ih ((List.suffix_cons level tighter).trans hs)
    cases h with
    | single h => exact ih _ _ h hl hw
    | @chain _ _ ws vs first tail h ht hne =>
      rw [List.length_append] at hl
      have head := ih _ _ h (by omega) (hw.part (List.prefix_append _ _).isInfix)
      have rest := ht.expressible ih (by omega) (hw.part (List.suffix_append _ _).isInfix)
      have known : level.map Prod.snd ∈ BinaryOp.levels :=
        map_levels ▸ List.mem_map_of_mem (hs.subset List.mem_cons_self)
      refine .chain (by simpa using hne) (by simp) known ?_ ?_
      · simpa using fun op e h => (rest (op, e) h).1
      · simpa using ⟨head, fun e op h => (rest (op, e) h).2⟩

theorem exprsExpressible (n : Nat) : ExprsExpressible n := by
  induction n with
  | zero =>
    intro ws e hl _ h
    obtain ⟨s, ws, rfl, -⟩ := h.starts
    simp at hl
  | succ n ih =>
    intro ws e hl hw h
    have binary := IsBinary.expressible ih List.suffix_rfl
    cases h with
    | plain h => exact binary _ _ h hl hw
    | @assign ws vs target value h hv =>
      simp only [List.length_append, List.length_cons] at hl
      have inside : vs <:+: ws ++ .mark "=" :: vs := ((List.suffix_cons _ vs).trans (List.suffix_append ws _)).isInfix
      cases binary _ _ h (by omega) (hw.part (List.prefix_append _ _).isInfix) with
      | ident name => exact .assign name (binary _ _ hv (by omega) (hw.part inside))

theorem IsExpr.expressible {ws : List Symbol} {e : Expr} (h : IsExpr ws e) (hw : Lexical ws) : e.Expressible :=
  exprsExpressible ws.length ws e (Nat.le_refl _) hw h

/-! ## Statements -/

/-- Every statement of at most `n` symbols has an expressible tree. -/
def StmtsExpressible (n : Nat) : Prop := ∀ ws s, ws.length ≤ n → Lexical ws → IsStmt ws s → s.Expressible

theorem Many.expressible {n : Nat} (hn : StmtsExpressible n) {ws : List Symbol} {body : List Stmt}
    (h : Many IsStmt ws body) (hl : ws.length ≤ n) (hw : Lexical ws) : ∀ s ∈ body, s.Expressible :=
  h.forall fun vs s hv => hn vs s (Nat.le_trans hv.length_le hl) (hw.part hv)

theorem IsGuarded.expressible {n : Nat} (hn : StmtsExpressible n) {ws : List Symbol} {branch : Expr × List Stmt}
    (h : IsGuarded ws branch) (hl : ws.length ≤ n + 4) (hw : Lexical ws) :
    branch.1.Expressible ∧ ∀ s ∈ branch.2, s.Expressible := by
  cases h with
  | @mk ws vs guard body h hv =>
    simp only [parens, braces, List.length_append, List.length_cons] at hl
    have inGuard : ws <:+: parens ws ++ braces vs := (infix_parens ws).trans (List.prefix_append _ _).isInfix
    have inBody : vs <:+: parens ws ++ braces vs := (infix_braces vs).trans (List.suffix_append _ _).isInfix
    exact ⟨h.expressible (hw.part inGuard), Many.expressible hn hv (by omega) (hw.part inBody)⟩

theorem ifChain_expressible {branches : List (Expr × List Stmt)} {last : IfChain}
    (h : ∀ b ∈ branches, b.1.Expressible ∧ ∀ s ∈ b.2, s.Expressible) (hl : last.Expressible) :
    (ifChain branches last).Expressible := by
  induction branches with
  | nil => exact hl
  | cons b branches ih =>
    obtain ⟨hb, hbs⟩ := List.forall_mem_cons.1 h
    exact .branch hb.1 hb.2 (ih hbs)

/-- There is at least one branch, so the tree is that of an `if`. -/
theorem cond_expressible {sep ws : List Symbol} {branches : List (Expr × List Stmt)} {last : IfChain}
    (h : Separated sep IsGuarded ws branches) (hc : (ifChain branches last).Expressible) :
    (Stmt.cond (ifChain branches last)).Expressible := by
  cases branches with
  | nil =>
    generalize hb : ([] : List (Expr × List Stmt)) = branches at h
    cases h <;> simp at hb
  | cons b branches => exact .cond hc

theorem stmtsExpressible (n : Nat) : StmtsExpressible n := by
  induction n with
  | zero =>
    intro ws s hl _ h
    obtain ⟨first, ws, rfl, -⟩ := h.starts
    simp at hl
  | succ n ih =>
    intro ws s hl hw h
    have branches {sep vs : List Symbol} {bs : List (Expr × List Stmt)} (hs : Separated sep IsGuarded vs bs)
        (hv : vs <:+: ws) (hl : vs.length ≤ n + 4) : ∀ b ∈ bs, b.1.Expressible ∧ ∀ s ∈ b.2, s.Expressible :=
      hs.forall fun us b hu hb => hb.expressible ih (Nat.le_trans hu.length_le hl) (hw.part (hu.trans hv))
    cases h with
    | declare ty name => exact .declare ty (hw (.ident name) (by simp))
    | @ret ws e h => exact .ret (h.expressible (hw.part ⟨[.keyword "return"], [.mark ";"], rfl⟩))
    | @cond ws bs h =>
      have all := branches h (List.suffix_cons _ ws).isInfix (by simp at hl; omega)
      exact cond_expressible h (ifChain_expressible all .done)
    | @condElse ws vs bs body h hb =>
      simp only [braces, List.length_append, List.length_cons] at hl
      have inside : ws <:+: .keyword "if" :: ws ++ .keyword "else" :: braces vs :=
        ⟨[.keyword "if"], .keyword "else" :: braces vs, rfl⟩
      have inElse : vs <:+: .keyword "if" :: ws ++ .keyword "else" :: braces vs :=
        (infix_braces vs).trans ((List.suffix_cons _ _).trans (List.suffix_append _ _)).isInfix
      have all := branches h inside (by omega)
      exact cond_expressible h
        (ifChain_expressible all (.otherwise (Many.expressible ih hb (by omega) (hw.part inElse))))
    | @loop ws guard body h =>
      obtain ⟨hg, hb⟩ := h.expressible ih (by simp at hl; omega) (hw.part (List.suffix_cons _ ws).isInfix)
      exact .loop hg hb
    | @expr ws e h => exact .expr (h.expressible (hw.part (List.prefix_append ws _).isInfix))

/-! ## Programs -/

theorem IsFunction.expressible {ws : List Symbol} {f : Function} (h : IsFunction ws f) (hw : Lexical ws) :
    f.Expressible := by
  cases h with
  | @mk ty name ps bs params body hp hb =>
    have inParams : ps <:+: typeSymbols ty ++ .ident name :: parens ps ++ braces bs :=
      (infix_parens ps).trans ⟨typeSymbols ty ++ [.ident name], braces bs, by simp⟩
    have inBody : bs <:+: typeSymbols ty ++ .ident name :: parens ps ++ braces bs :=
      (infix_braces bs).trans (List.suffix_append _ _).isInfix
    refine ⟨hw (.ident name) (by simp), ?_, ?_⟩
    · refine hp.forall fun us p hu h => ?_
      cases h with
      | mk ty name => exact hw.part (hu.trans inParams) (.ident name) (by simp)
    · exact Many.expressible (stmtsExpressible bs.length) hb (Nat.le_refl _) (hw.part inBody)

theorem IsProgram.expressible {ws : List Symbol} {p : Program} (h : IsProgram ws p) (hw : Lexical ws) : p.Expressible :=
  Many.forall h fun _ _ hv hf => hf.expressible (hw.part hv)

end Grammar

end DotCom
