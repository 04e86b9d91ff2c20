/-
  DotCom.Proofs.Rendering — programs written out as text, and read back.

  - `Program.Expressible.isProgram`: the symbols of an expressible program are a phrase of the grammar with the
    program as its tree.

  Parentheses stand around every part that is not a name, a number or a string, so that each part
  is a primary expression and no two levels of operators ever meet.
-/

import DotCom.Compile
import DotCom.Proofs.Lowering.Pairs
import DotCom.Proofs.Parsing.Refusals
import DotCom.Proofs.Spelling

namespace DotCom

open Grammar

/-! ## Trees as symbols -/

/-- The symbols of a part of an expression, in parentheses unless it is a name, a number or a string. -/
def enclosed (ws : List Symbol) : Expr → List Symbol
  | .ident _ | .int _ | .str _ => ws
  | .call .. | .assign .. | .chain .. => parens ws

/-- An operator and its right operand. -/
def applied (op : BinaryOp) (operand : List Symbol) : List Symbol :=
  if op = .subscript then brackets operand else .mark op.symbol :: operand

/-- Phrases with a comma between any two. -/
def commas (phrases : List (List Symbol)) : List Symbol := List.intercalate [.mark ","] phrases

mutual

def Expr.symbols : Expr → List Symbol
  | .ident name => [.ident name]
  | .int value => [.number value]
  | .str text => [.str text]
  | .call callee args => .ident callee :: parens (commas (partSymbols args))
  | .assign target value => .ident target :: .mark "=" :: enclosed value.symbols value
  | .chain operands operators =>
    match operands with
    | [] => []
    | first :: rest => enclosed first.symbols first ++ tailSymbols operators rest

/-- Each part by itself. -/
def partSymbols : List Expr → List (List Symbol)
  | [] => []
  | e :: es => enclosed e.symbols e :: partSymbols es

def tailSymbols : List BinaryOp → List Expr → List Symbol
  | op :: ops, e :: es => applied op (enclosed e.symbols e) ++ tailSymbols ops es
  | _, _ => []

end

/-- What follows a branch, whose own symbols are `ws`. -/
def continued (ws : List Symbol) : IfChain → List Symbol
  | .done => []
  | .branch .. | .otherwise _ => .keyword "else" :: ws

mutual

def Stmt.symbols : Stmt → List Symbol
  | .declare ty name => typeSymbols ty ++ [.ident name, .mark ";"]
  | .expr e => e.symbols ++ [.mark ";"]
  | .ret e => .keyword "return" :: e.symbols ++ [.mark ";"]
  | .cond chain => chain.symbols
  | .loop guard body => .keyword "while" :: (parens (enclosed guard.symbols guard) ++ braces (bodySymbols body))

def IfChain.symbols : IfChain → List Symbol
  | .branch guard body next =>
    .keyword "if" :: (parens (enclosed guard.symbols guard) ++ braces (bodySymbols body) ++ continued next.symbols next)
  | .otherwise body => braces (bodySymbols body)
  | .done => []

def bodySymbols : List Stmt → List Symbol
  | [] => []
  | s :: ss => s.symbols ++ bodySymbols ss

end

def Param.symbols (p : Param) : List Symbol := typeSymbols p.ty ++ [.ident p.name]

def Function.symbols (f : Function) : List Symbol :=
  typeSymbols f.returnType ++ .ident f.name :: parens (commas (f.params.map Param.symbols)) ++
    braces (bodySymbols f.body)

def Program.symbols (p : Program) : List Symbol := p.functions.flatMap Function.symbols

/-- The text of a program, with a space between any two symbols. -/
def Program.render (p : Program) : String := " ".intercalate (p.symbols.map Symbol.spelling)

theorem partSymbols_eq_map (es : List Expr) : partSymbols es = es.map fun e => enclosed e.symbols e := by
  induction es with
  | nil => rfl
  | cons e es ih => rw [partSymbols, ih, List.map_cons]

namespace Grammar

/-! ## Phrases from the front -/

section

variable {α : Type} {phrase : List Symbol → α → Prop}

theorem Many.cons {vs ws : List Symbol} {x : α} {xs : List α} (hx : phrase vs x) (h : Many phrase ws xs) :
    Many phrase (vs ++ ws) (x :: xs) := by
  induction h with
  | nil => simpa using Many.snoc .nil hx
  | snoc _ hy ih =>
    rw [← List.append_assoc, ← List.cons_append]
    exact .snoc ih hy

theorem Many.of_flatMap {f : α → List Symbol} {xs : List α} (h : ∀ x ∈ xs, phrase (f x) x) :
    Many phrase (xs.flatMap f) xs := by
  induction xs with
  | nil => exact .nil
  | cons x xs ih =>
    obtain ⟨hx, hxs⟩ := List.forall_mem_cons.1 h
    exact Many.cons hx (ih hxs)

theorem Separated.cons {sep vs ws : List Symbol} {x : α} {xs : List α} (hx : phrase vs x)
    (h : Separated sep phrase ws xs) :
    Separated sep phrase (vs ++ sep ++ ws) (x :: xs) := by
  induction h with
  | one hy => exact .more (.one hx) hy
  | more _ hy ih =>
    simp only [← List.append_assoc, ← List.cons_append] at ih ⊢
    exact .more ih hy

theorem Listed.of_map {f : α → List Symbol} {xs : List α} (h : ∀ x ∈ xs, phrase (f x) x) :
    Listed phrase (commas (xs.map f)) xs := by
  cases xs with
  | nil => exact .none
  | cons x xs =>
    refine .some ?_
    induction xs generalizing x with
    | nil => simpa [commas] using Separated.one (h x List.mem_cons_self)
    | cons y xs ih =>
      obtain ⟨hx, hxs⟩ := List.forall_mem_cons.1 h
      rw [commas, List.map_cons, List.map_cons, List.intercalate_cons_cons]
      exact Separated.cons hx (ih y hxs)

end

theorem IsTail.cons {level : Level} {tighter : List Level} {vs : List Symbol} {mark : String} {op : BinaryOp} {e : Expr}
    (hm : (mark, op) ∈ level) (he : IsBinary tighter vs e) {ws : List Symbol} {tail : List (BinaryOp × Expr)} :
    IsTail level tighter ws tail → IsTail level tighter (.mark mark :: vs ++ ws) ((op, e) :: tail)
  | .nil => by simpa using IsTail.snoc .nil hm he
  | .snoc h hm' he' => by
    rw [← List.append_assoc, ← List.cons_append]
    exact .snoc (h.cons hm he) hm' he'

theorem IsBinary.of_postfixed {ws : List Symbol} {e : Expr} (h : IsPostfix ws e) (lower : List Level) :
    IsBinary lower ws e := by
  induction lower with
  | nil => exact .postfixed h
  | cons level tighter ih => exact .single ih

theorem IsBinary.loosen {lower : List Level} {ws : List Symbol} {e : Expr} (h : IsBinary lower ws e)
    (looser : List Level) :
    IsBinary (looser ++ lower) ws e := by
  induction looser with
  | nil => exact h
  | cons level looser ih => exact .single ih

theorem IsExpr.of_postfixed {ws : List Symbol} {e : Expr} (h : IsPostfix ws e) : IsExpr ws e :=
  .plain (IsBinary.of_postfixed h levels)

/-! ## Expressions -/

theorem isPostfix_enclosed {e : Expr} (h : IsExpr e.symbols e) : IsPostfix (enclosed e.symbols e) e := by
  refine .primary ?_
  cases e with
  | ident name => exact .ident name
  | int value => exact .number value
  | str text => exact .str text
  | call _ _ | assign _ _ | chain _ _ => exact .parens h

/-- A level of operators with the marks that the grammar gives them. -/
theorem exists_level {ops : List BinaryOp} (h : ops ∈ BinaryOp.levels) :
    ∃ level ∈ levels, ∀ op ∈ ops, (op.symbol, op) ∈ level ∧ op ≠ .subscript := by
  have all : ∀ level ∈ levels, ∀ op ∈ level.map Prod.snd, (op.symbol, op) ∈ level ∧ op ≠ .subscript := by decide
  rw [← map_levels] at h
  obtain ⟨level, hl, rfl⟩ := List.mem_map.1 h
  exact ⟨level, hl, all level hl⟩

theorem isTail_tailSymbols {level : Level} (tighter : List Level) {ops : List BinaryOp} {es : List Expr}
    (hl : es.length = ops.length) (hops : ∀ op ∈ ops, (op.symbol, op) ∈ level ∧ op ≠ .subscript)
    (hes : ∀ e ∈ es, IsExpr e.symbols e) : IsTail level tighter (tailSymbols ops es) (ops.zip es) := by
  induction ops generalizing es with
  | nil =>
    rw [List.zip_nil_left, tailSymbols]
    · exact .nil
    · simp
  | cons op ops ih =>
    obtain ⟨e, es, rfl⟩ := List.exists_cons_of_length_eq_add_one hl
    obtain ⟨⟨hm, hop⟩, hops⟩ := List.forall_mem_cons.1 hops
    obtain ⟨he, hes⟩ := List.forall_mem_cons.1 hes
    rw [tailSymbols, applied, if_neg hop]
    exact IsTail.cons hm (IsBinary.of_postfixed (isPostfix_enclosed he) tighter) (ih (by simpa using hl) hops hes)

theorem isExpr_chain {operands : List Expr} {operators : List BinaryOp} {ops : List BinaryOp} (hne : operators ≠ [])
    (hl : operands.length = operators.length + 1) (hops : ops ∈ BinaryOp.levels) (hall : ∀ op ∈ operators, op ∈ ops)
    (hes : ∀ e ∈ operands, IsExpr e.symbols e) :
    IsExpr (Expr.chain operands operators).symbols (.chain operands operators) := by
  obtain ⟨first, rest, rfl⟩ := List.exists_cons_of_length_eq_add_one hl
  obtain ⟨level, hlevel, hmarks⟩ := exists_level hops
  obtain ⟨looser, tighter, hsplit⟩ := List.append_of_mem hlevel
  obtain ⟨hfirst, hrest⟩ := List.forall_mem_cons.1 hes
  have same : rest.length = operators.length := by simpa using hl
  have tail := isTail_tailSymbols tighter same (fun op h => hmarks op (hall op h)) hrest
  have head := IsBinary.of_postfixed (isPostfix_enclosed hfirst) tighter
  have tailed : operators.zip rest ≠ [] := by
    intro h
    have none := congrArg List.length h
    rw [List.length_zip, same, Nat.min_self] at none
    exact hne (List.eq_nil_of_length_eq_zero none)
  have chain := IsBinary.loosen (IsBinary.chain head tail tailed) looser
  rw [← hsplit, List.map_snd_zip (by omega), List.map_fst_zip (by omega)] at chain
  exact .plain chain

end Grammar

theorem Expr.Expressible.isExpr {e : Expr} (h : e.Expressible) : IsExpr e.symbols e := by
  induction h with
  | ident _ => exact .of_postfixed (.primary (.ident _))
  | int _ _ => exact .of_postfixed (.primary (.number _))
  | str text => exact .of_postfixed (.primary (.str text))
  | @call callee args _ _ ih =>
    rw [Expr.symbols, partSymbols_eq_map]
    refine .of_postfixed (IsPostfix.call (.primary (.ident callee)) (Listed.of_map fun e he => ?_))
    exact .of_postfixed (isPostfix_enclosed (ih e he))
  | @assign target value _ _ ih =>
    rw [Expr.symbols]
    exact .assign (IsBinary.of_postfixed (.primary (.ident target)) levels)
      (IsBinary.of_postfixed (isPostfix_enclosed ih) levels)
  | chain hne hl hops hall _ ih => exact isExpr_chain hne hl hops hall ih
  | @subscript e index _ _ ihe ihi =>
    rw [Expr.symbols, tailSymbols, tailSymbols, List.append_nil]
    · exact .of_postfixed (.subscript (isPostfix_enclosed ihe) (.of_postfixed (isPostfix_enclosed ihi)))
    · simp

/-! ## Statements -/

namespace Grammar

theorem isGuarded_symbols {guard : Expr} {body : List Stmt} (hg : guard.Expressible)
    (hb : Many IsStmt (bodySymbols body) body) :
    IsGuarded (parens (enclosed guard.symbols guard) ++ braces (bodySymbols body)) (guard, body) :=
  .mk (.of_postfixed (isPostfix_enclosed hg.isExpr)) hb

/-- A branch put in front of an `if`. -/
theorem IsStmt.prepend {vs ws : List Symbol} {guard : Expr} {body : List Stmt} {next : IfChain}
    (hb : IsGuarded vs (guard, body)) (h : IsStmt (.keyword "if" :: ws) (.cond next)) :
    IsStmt (.keyword "if" :: (vs ++ .keyword "else" :: .keyword "if" :: ws)) (.cond (.branch guard body next)) := by
  generalize hs : Stmt.cond next = s at h
  generalize hw : Symbol.keyword "if" :: ws = us at h
  cases h with
  | @cond ws' branches h =>
    cases hs
    cases hw
    have all := Separated.cons hb h
    rw [List.append_assoc] at all
    exact .cond all
  | @condElse ws' es branches body' h he =>
    cases hs
    cases hw
    have all := Separated.cons hb h
    rw [List.append_assoc] at all
    have whole := IsStmt.condElse all he
    rw [List.cons_append, List.append_assoc] at whole
    exact whole
  | declare _ _ | ret _ | loop _ | expr _ => cases hs

end Grammar

mutual

theorem Stmt.isStmt : (s : Stmt) → s.Expressible → IsStmt s.symbols s
  | .declare ty name, _ => .declare ty name
  | .expr _, .expr h => .expr h.isExpr
  | .ret _, .ret h => .ret h.isExpr
  | .cond (.branch _ body next), .cond (.branch hg hb hn) =>
    next.isStmt hn (isGuarded_symbols hg (many_bodySymbols body hb))
  | .loop _ body, .loop hg hb => .loop (isGuarded_symbols hg (many_bodySymbols body hb))

/-- What follows a branch, together with it. -/
theorem IfChain.isStmt : (chain : IfChain) → chain.Expressible → ∀ {vs : List Symbol} {guard : Expr} {body : List Stmt},
    IsGuarded vs (guard, body) →
    IsStmt (.keyword "if" :: (vs ++ continued chain.symbols chain)) (.cond (.branch guard body chain))
  | .done, _, vs, _, _, h => by
    rw [continued, List.append_nil]
    exact .cond (.one h)
  | .otherwise last, .otherwise hl, _, _, _, h => .condElse (.one h) (many_bodySymbols last hl)
  | .branch _ body next, .branch hg hb hn, _, _, _, h =>
    IsStmt.prepend h (next.isStmt hn (isGuarded_symbols hg (many_bodySymbols body hb)))

theorem many_bodySymbols : (body : List Stmt) → (∀ s ∈ body, s.Expressible) → Many IsStmt (bodySymbols body) body
  | [], _ => .nil
  | s :: ss, h => Many.cons (s.isStmt (List.forall_mem_cons.1 h).1) (many_bodySymbols ss (List.forall_mem_cons.1 h).2)

end

/-! ## Programs -/

theorem Function.Expressible.isFunction {f : Function} (h : f.Expressible) : IsFunction f.symbols f :=
  .mk f.returnType f.name (Listed.of_map fun p _ => .mk p.ty p.name) (many_bodySymbols f.body h.body)

theorem Program.Expressible.isProgram {p : Program} (h : p.Expressible) : IsProgram p.symbols p :=
  Many.of_flatMap fun f hf => (h f hf).isFunction

/-! ## Symbols of trees can stand in a text -/

namespace Grammar

@[simp] theorem lexical_nil : Lexical [] := by simp [Lexical]

@[simp] theorem lexical_cons {s : Symbol} {ws : List Symbol} : Lexical (s :: ws) ↔ Token.Lexical s ∧ Lexical ws :=
  List.forall_mem_cons

@[simp] theorem lexical_append {vs ws : List Symbol} : Lexical (vs ++ ws) ↔ Lexical vs ∧ Lexical ws :=
  List.forall_mem_append

@[simp] theorem lexical_parens {ws : List Symbol} : Lexical (parens ws) ↔ Lexical ws := by
  simp +decide [parens, Token.Lexical]

@[simp] theorem lexical_brackets {ws : List Symbol} : Lexical (brackets ws) ↔ Lexical ws := by
  simp +decide [brackets, Token.Lexical]

@[simp] theorem lexical_braces {ws : List Symbol} : Lexical (braces ws) ↔ Lexical ws := by
  simp +decide [braces, Token.Lexical]

theorem lexical_commas {phrases : List (List Symbol)} (h : ∀ ws ∈ phrases, Lexical ws) : Lexical (commas phrases) := by
  induction phrases with
  | nil => exact lexical_nil
  | cons ws phrases ih =>
    obtain ⟨hw, hp⟩ := List.forall_mem_cons.1 h
    cases phrases with
    | nil => simpa [commas] using hw
    | cons vs phrases =>
      rw [commas, List.intercalate_cons_cons, List.append_assoc]
      exact lexical_append.2 ⟨hw, lexical_cons.2 ⟨(by decide : "," ∈ Token.marks), ih hp⟩⟩

theorem lexical_typeSymbols (ty : Ty) : Lexical (typeSymbols ty) := by
  refine lexical_cons.2 ⟨?_, fun s hs => ?_⟩
  · cases ty.base with
    | int => exact (by decide : "int" ∈ Token.keywords)
    | char => exact (by decide : "char" ∈ Token.keywords)
  · rw [List.eq_of_mem_replicate hs]
    exact (by decide : "*" ∈ Token.marks)

@[simp] theorem lexical_enclosed {ws : List Symbol} {e : Expr} : Lexical (enclosed ws e) ↔ Lexical ws := by
  cases e <;> simp [enclosed]

theorem symbol_mem_marks {op : BinaryOp} (h : op ≠ .subscript) : op.symbol ∈ Token.marks := by
  cases op <;> first | contradiction | decide

theorem lexical_applied {op : BinaryOp} {ws : List Symbol} (h : Lexical ws) : Lexical (applied op ws) := by
  unfold applied
  split
  · simpa using h
  · exact lexical_cons.2 ⟨symbol_mem_marks ‹_›, h⟩

theorem lexical_tailSymbols (ops : List BinaryOp) {es : List Expr} (h : ∀ e ∈ es, Lexical e.symbols) :
    Lexical (tailSymbols ops es) := by
  induction ops generalizing es with
  | nil => simp [tailSymbols]
  | cons op ops ih =>
    cases es with
    | nil => simp [tailSymbols]
    | cons e es =>
      obtain ⟨he, hes⟩ := List.forall_mem_cons.1 h
      rw [tailSymbols]
      exact lexical_append.2 ⟨lexical_applied (lexical_enclosed.2 he), ih hes⟩

end Grammar

theorem Expr.Expressible.lexical {e : Expr} (h : e.Expressible) : Lexical e.symbols := by
  induction h with
  | ident hn => simpa [Expr.symbols, Token.Lexical] using hn
  | int h0 h1 => simpa [Expr.symbols, Token.Lexical] using ⟨h0, h1⟩
  | str text => simp [Expr.symbols, Token.Lexical]
  | @call callee args hn _ ih =>
    rw [Expr.symbols, partSymbols_eq_map]
    refine lexical_cons.2 ⟨hn, lexical_parens.2 (lexical_commas ?_)⟩
    simpa using ih
  | assign hn _ ih =>
    rw [Expr.symbols]
    exact lexical_cons.2 ⟨hn, lexical_cons.2 ⟨(by decide : "=" ∈ Token.marks), lexical_enclosed.2 ih⟩⟩
  | @chain operands operators _ _ _ _ _ _ ih =>
    cases operands with
    | nil => simp [Expr.symbols]
    | cons first rest =>
      obtain ⟨hf, hr⟩ := List.forall_mem_cons.1 ih
      rw [Expr.symbols]
      exact lexical_append.2 ⟨lexical_enclosed.2 hf, lexical_tailSymbols operators hr⟩
  | subscript _ _ ihe ihi =>
    rw [Expr.symbols]
    exact lexical_append.2 ⟨lexical_enclosed.2 ihe, lexical_tailSymbols _ (by simpa using ihi)⟩

theorem lexical_continued {ws : List Symbol} (h : Lexical ws) (next : IfChain) : Lexical (continued ws next) := by
  cases next with
  | done => exact lexical_nil
  | branch _ _ _ | otherwise _ => exact lexical_cons.2 ⟨(by decide : "else" ∈ Token.keywords), h⟩

theorem lexical_ended {ws : List Symbol} (h : Lexical ws) : Lexical (ws ++ [.mark ";"]) :=
  lexical_append.2 ⟨h, lexical_cons.2 ⟨(by decide : ";" ∈ Token.marks), lexical_nil⟩⟩

theorem lexical_guarded {guard : Expr} {body : List Stmt} (hg : guard.Expressible) (hb : Lexical (bodySymbols body)) :
    Lexical (parens (enclosed guard.symbols guard) ++ braces (bodySymbols body)) :=
  lexical_append.2 ⟨lexical_parens.2 (lexical_enclosed.2 hg.lexical), lexical_braces.2 hb⟩

mutual

theorem Stmt.lexical : (s : Stmt) → s.Expressible → Lexical s.symbols
  | .declare ty name, .declare _ h => by
    have front : Lexical (typeSymbols ty ++ [.ident name]) :=
      lexical_append.2 ⟨lexical_typeSymbols ty, lexical_cons.2 ⟨h, lexical_nil⟩⟩
    simpa [Stmt.symbols] using lexical_ended front
  | .expr _, .expr h => lexical_ended h.lexical
  | .ret _, .ret h => lexical_cons.2 ⟨(by decide : "return" ∈ Token.keywords), lexical_ended h.lexical⟩
  | .cond (.branch guard body next), .cond h => IfChain.lexical (.branch guard body next) h
  | .loop _ body, .loop hg hb =>
    lexical_cons.2 ⟨(by decide : "while" ∈ Token.keywords), lexical_guarded hg (lexical_bodySymbols body hb)⟩

theorem IfChain.lexical : (chain : IfChain) → chain.Expressible → Lexical chain.symbols
  | .done, _ => lexical_nil
  | .otherwise last, .otherwise hl => lexical_braces.2 (lexical_bodySymbols last hl)
  | .branch _ body next, .branch hg hb hn =>
    lexical_cons.2 ⟨(by decide : "if" ∈ Token.keywords),
      lexical_append.2 ⟨lexical_guarded hg (lexical_bodySymbols body hb), lexical_continued (next.lexical hn) next⟩⟩

theorem lexical_bodySymbols : (body : List Stmt) → (∀ s ∈ body, s.Expressible) → Lexical (bodySymbols body)
  | [], _ => lexical_nil
  | s :: ss, h =>
    lexical_append.2 ⟨s.lexical (List.forall_mem_cons.1 h).1, lexical_bodySymbols ss (List.forall_mem_cons.1 h).2⟩

end

theorem Function.Expressible.lexical {f : Function} (h : f.Expressible) : Lexical f.symbols := by
  have param : ∀ p ∈ f.params, Lexical p.symbols := fun p hp =>
    lexical_append.2 ⟨lexical_typeSymbols p.ty, lexical_cons.2 ⟨h.params p hp, lexical_nil⟩⟩
  have params : Lexical (parens (commas (f.params.map Param.symbols))) :=
    lexical_parens.2 (lexical_commas (List.forall_mem_map.2 param))
  refine lexical_append.2 ⟨lexical_append.2 ⟨lexical_typeSymbols f.returnType, lexical_cons.2 ⟨h.name, params⟩⟩, ?_⟩
  exact lexical_braces.2 (lexical_bodySymbols f.body h.body)

theorem Program.Expressible.lexical {p : Program} (h : p.Expressible) : Lexical p.symbols := by
  intro s hs
  obtain ⟨f, hf, hs⟩ := List.mem_flatMap.1 hs
  exact (h f hf).lexical s hs

/-! ## The round trip -/

namespace Program

/-- The text of an expressible program is read as that program. -/
theorem Expressible.parse_render {p : Program} (h : p.Expressible) : parse p.render = .ok p :=
  parse_eq_ok_iff.2 ⟨p.symbols, Token.scans_spellings h.lexical, h.isProgram⟩

/-- Whatever is read off a text is expressible. -/
theorem expressible_of_parse {source : String} {p : Program} (h : parse source = .ok p) : p.Expressible := by
  obtain ⟨ss, hss, hp⟩ := parse_eq_ok_iff.1 h
  exact hp.expressible hss.lexical

theorem compile_ne_malformedChain {p : Program} (h : p.Expressible) (options : Options) (n m : Nat) (f : String) :
    p.compile options ≠ .error (.rejected (.malformedChain n m f)) := by
  intro hc
  unfold compile compileLogged at hc
  cases hg : Generator.create options with
  | error e =>
    simp only [hg] at hc
    cases hc
    unfold Generator.create Image.create at hg
    split at hg
    · cases hg
    · split at hg <;> cases hg
  | ok g =>
    simp only [hg] at hc
    cases hl : p.lower options.entryPoint g with
    | ok _ g' =>
      rw [hl] at hc
      cases hc
    | error e g' =>
      rw [hl] at hc
      cases hc
      exact native_of_lower h hl

end Program

/-- No source text is refused for a chain with a wrong number of operands. -/
theorem compile_source_ne_malformedChain (source : String) (options : Options) (n m : Nat) (f : String) :
    compile source options ≠ .error (.rejected (.malformedChain n m f)) := by
  intro hc
  unfold compile compileLogged at hc
  cases hp : Program.parse source with
  | error e =>
    rw [hp] at hc
    cases hc
    rcases Program.diagnoses_parse hp with h | ⟨_, _, h⟩ <;> cases h
  | ok p =>
    rw [hp] at hc
    exact Program.compile_ne_malformedChain (Program.expressible_of_parse hp) options n m f hc

namespace Program

/-- Expressible programs are those that some text is read as: their own text is, and whatever is read
    off a text is one of them. So no text is refused for the shape of its chains. -/
theorem rendering_round_trip :
    (∀ p : Program, p.Expressible → parse p.render = .ok p) ∧
      (∀ source p, parse source = .ok p → Program.Expressible p) ∧
      ∀ source options n m f, DotCom.compile source options ≠ .error (.rejected (.malformedChain n m f)) :=
  ⟨fun _ h => h.parse_render, fun _ _ h => expressible_of_parse h, compile_source_ne_malformedChain⟩

/-- A program with a subscript and a call inside chains, and a string that needs escapes. -/
def quoting : Program :=
  ⟨[⟨"f", ⟨.int, 0⟩, [⟨⟨.char, 2⟩, "p"⟩],
    [.cond (.branch (.chain [.ident "p", .chain [.int 1, .call "f" []] [.sub]] [.subscript])
      [.expr (.call "f" [.str "\"\\\x00é"])] (.otherwise [.ret (.assign "p" (.int 9223372036854775807))]))]⟩]⟩

theorem quoting_round_trip : quoting.Expressible ∧ parse quoting.render = .ok quoting := by
  have f : Token.IsName "f" := ⟨'f', [], rfl, .inl ⟨by decide, by decide⟩, by simp, by decide⟩
  have p : Token.IsName "p" := ⟨'p', [], rfl, .inl ⟨by decide, by decide⟩, by simp, by decide⟩
  have call : (Expr.call "f" []).Expressible := .call f (by simp)
  have difference : (Expr.chain [.int 1, .call "f" []] [.sub]).Expressible := by
    refine @Expr.Expressible.chain _ _ [.add, .sub] (by decide) rfl (by decide) (by decide)
      (List.forall_mem_cons.2 ⟨?_, ?_⟩)
    · exact .int (by decide) (by decide)
    · exact List.forall_mem_singleton.2 call
  have greeted : (Stmt.expr (.call "f" [.str "\"\\\x00é"])).Expressible :=
    .expr (.call f (List.forall_mem_singleton.2 (.str _)))
  have assigned : (Stmt.ret (.assign "p" (.int 9223372036854775807))).Expressible :=
    .ret (.assign p (.int (by decide) (by decide)))
  have body : (Stmt.cond (.branch (.chain [.ident "p", .chain [.int 1, .call "f" []] [.sub]] [.subscript])
      [.expr (.call "f" [.str "\"\\\x00é"])]
        (.otherwise [.ret (.assign "p" (.int 9223372036854775807))]))).Expressible :=
    .cond (.branch (.subscript (.ident p) difference) (List.forall_mem_singleton.2 greeted)
      (.otherwise (List.forall_mem_singleton.2 assigned)))
  have expressible : quoting.Expressible :=
    List.forall_mem_singleton.2 ⟨f, List.forall_mem_singleton.2 p, List.forall_mem_singleton.2 body⟩
  exact ⟨expressible, rendering_round_trip.1 quoting expressible⟩

end Program

end DotCom
