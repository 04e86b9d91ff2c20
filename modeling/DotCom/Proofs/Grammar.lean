/-
  DotCom.Proofs.Grammar — the grammar of programs, as a relation between the symbols of a phrase
  and the tree it stands for. The grammar says nothing about how a phrase is found.

    program    := function*
    function   := type IDENT "(" (type IDENT ("," type IDENT)*)? ")" "{" stmt* "}"
    type       := ("int" | "char") "*"*
    stmt       := type IDENT ";" | "return" expr ";" | expr ";"
                | "if" "(" expr ")" block ("else" "if" "(" expr ")" block)* ("else" block)?
                | "while" "(" expr ")" block
    block      := "{" stmt* "}"
    expr       := logic_or ("=" logic_or)?
    logic_or   := logic_and ("||" logic_and)*       and so on down to
    term       := postfix (("*" | "/" | "%") postfix)*
    postfix    := primary ("(" (expr ("," expr)*)? ")" | "[" expr "]")*
    primary    := "(" expr ")" | IDENT | INTEGER | STRING

  What is called, and what is assigned to, must be an identifier. Since parentheses leave no node,
  that is asked of the tree of the phrase, not of its symbols.
-/

import DotCom.Program.Cursor

namespace DotCom

/-- What a token is to the grammar. -/
inductive Symbol where
  | mark (text : String)
  | keyword (word : String)
  | ident (name : String)
  | number (value : Int)
  | str (contents : String)
  deriving DecidableEq, Repr

/-- The symbol of a token of some kind and text; the end of the source is none. -/
def Token.Kind.symbol? (text? : Option String) : Token.Kind → Option Symbol
  | .mark => text?.map .mark
  | .keyword => text?.map .keyword
  | .ident => text?.map .ident
  | .number value? => value?.map .number
  | .str contents? => contents?.map .str
  | .eof => none

def Lexeme.symbol? (l : Lexeme) : Option Symbol := l.token.kind.symbol? l.text?

namespace Grammar

/-! ## Repetition -/

section

variable {α : Type}

/-- `phrase*` -/
inductive Many (phrase : List Symbol → α → Prop) : List Symbol → List α → Prop
  | nil : Many phrase [] []
  | snoc {ws vs : List Symbol} {xs : List α} {x : α} :
      Many phrase ws xs → phrase vs x → Many phrase (ws ++ vs) (xs ++ [x])

/-- `phrase (sep phrase)*` -/
inductive Separated (sep : List Symbol) (phrase : List Symbol → α → Prop) : List Symbol → List α → Prop
  | one {vs : List Symbol} {x : α} : phrase vs x → Separated sep phrase vs [x]
  | more {ws vs : List Symbol} {xs : List α} {x : α} :
      Separated sep phrase ws xs → phrase vs x → Separated sep phrase (ws ++ sep ++ vs) (xs ++ [x])

/-- `(phrase ("," phrase)*)?` -/
inductive Listed (phrase : List Symbol → α → Prop) : List Symbol → List α → Prop
  | none : Listed phrase [] []
  | some {ws : List Symbol} {xs : List α} : Separated [.mark ","] phrase ws xs → Listed phrase ws xs

/-- The first of some symbols has a property. -/
def Starts (P : Symbol → Prop) (ws : List Symbol) : Prop := ∃ s ws', ws = s :: ws' ∧ P s

theorem Starts.append {P : Symbol → Prop} {ws : List Symbol} (h : Starts P ws) (vs : List Symbol) :
    Starts P (ws ++ vs) := by
  obtain ⟨s, ws', rfl, hs⟩ := h
  exact ⟨s, ws' ++ vs, rfl, hs⟩

theorem Separated.starts {sep : List Symbol} {phrase : List Symbol → α → Prop} {P : Symbol → Prop} {ws : List Symbol}
    {xs : List α} (h : Separated sep phrase ws xs) (hp : ∀ vs x, phrase vs x → Starts P vs) : Starts P ws := by
  induction h with
  | one hx => exact hp _ _ hx
  | more _ _ ih =>
    rw [List.append_assoc]
    exact ih.append _

end

def parens (ws : List Symbol) : List Symbol := .mark "(" :: ws ++ [.mark ")"]

def brackets (ws : List Symbol) : List Symbol := .mark "[" :: ws ++ [.mark "]"]

def braces (ws : List Symbol) : List Symbol := .mark "\x7b" :: ws ++ [.mark "\x7d"]

/-! ## Types -/

/-- The one way to write a type: its base and as many stars as it is deep. -/
def typeSymbols (ty : Ty) : List Symbol :=
  .keyword (Ty.baseName ty.base) :: List.replicate ty.depth.toNat (.mark "*")

/-! ## Expressions -/

/-- The marks of one binary level, each with its operator. -/
abbrev Level := List (String × BinaryOp)

/-- The binary levels, loosest first. -/
def levels : List Level :=
  [ [("||", .logicOr)],
    [("&&", .logicAnd)],
    [("==", .eq), ("!=", .ne)],
    [("<", .lt), ("<=", .le), (">", .gt), (">=", .ge)],
    [("|", .bitOr)],
    [("^", .bitXor)],
    [("&", .bitAnd)],
    [("<<", .shl), (">>", .shr)],
    [("+", .add), ("-", .sub)],
    [("*", .mul), ("/", .div), ("%", .mod)] ]

mutual

inductive IsExpr : List Symbol → Expr → Prop
  | plain {ws : List Symbol} {e : Expr} : IsBinary levels ws e → IsExpr ws e
  | assign {ws vs : List Symbol} {target : String} {value : Expr} :
      IsBinary levels ws (.ident target) → IsBinary levels vs value →
        IsExpr (ws ++ .mark "=" :: vs) (.assign target value)

/-- A phrase of the first of some levels, whose operands are phrases of the next. A level with an
    operator is one flat chain, and without one it is its operand. -/
inductive IsBinary : List Level → List Symbol → Expr → Prop
  | postfixed {ws : List Symbol} {e : Expr} : IsPostfix ws e → IsBinary [] ws e
  | single {level : Level} {tighter : List Level} {ws : List Symbol} {e : Expr} :
      IsBinary tighter ws e → IsBinary (level :: tighter) ws e
  | chain {level : Level} {tighter : List Level} {ws vs : List Symbol} {first : Expr} {tail : List (BinaryOp × Expr)} :
      IsBinary tighter ws first → IsTail level tighter vs tail → tail ≠ [] →
        IsBinary (level :: tighter) (ws ++ vs) (.chain (first :: tail.map Prod.snd) (tail.map Prod.fst))

/-- The operators of a level behind its first operand, each with its right operand. -/
inductive IsTail : Level → List Level → List Symbol → List (BinaryOp × Expr) → Prop
  | nil {level : Level} {tighter : List Level} : IsTail level tighter [] []
  | snoc {level : Level} {tighter : List Level} {ws vs : List Symbol} {tail : List (BinaryOp × Expr)}
      {mark : String} {op : BinaryOp} {e : Expr} :
      IsTail level tighter ws tail → (mark, op) ∈ level → IsBinary tighter vs e →
        IsTail level tighter (ws ++ .mark mark :: vs) (tail ++ [(op, e)])

inductive IsPostfix : List Symbol → Expr → Prop
  | primary {ws : List Symbol} {e : Expr} : IsPrimary ws e → IsPostfix ws e
  | call {ws vs : List Symbol} {callee : String} {args : List Expr} :
      IsPostfix ws (.ident callee) → Listed IsExpr vs args → IsPostfix (ws ++ parens vs) (.call callee args)
  | subscript {ws vs : List Symbol} {e index : Expr} :
      IsPostfix ws e → IsExpr vs index → IsPostfix (ws ++ brackets vs) (.chain [e, index] [.subscript])

inductive IsPrimary : List Symbol → Expr → Prop
  | parens {ws : List Symbol} {e : Expr} : IsExpr ws e → IsPrimary (Grammar.parens ws) e
  | ident (name : String) : IsPrimary [.ident name] (.ident name)
  | number (value : Int) : IsPrimary [.number value] (.int value)
  | str (text : String) : IsPrimary [.str text] (.str text)

end

/-- The symbols that an expression can start with. -/
def OpensExpr : Symbol → Prop
  | .mark m => m = "("
  | .keyword _ => False
  | .ident _ | .number _ | .str _ => True

theorem IsPrimary.starts {ws : List Symbol} {e : Expr} (h : IsPrimary ws e) : Starts OpensExpr ws := by
  cases h with
  | parens _ => exact ⟨_, _, rfl, rfl⟩
  | ident _ | number _ | str _ => exact ⟨_, _, rfl, trivial⟩

theorem IsPostfix.starts {ws : List Symbol} {e : Expr} : IsPostfix ws e → Starts OpensExpr ws
  | .primary h => h.starts
  | .call h _ => h.starts.append _
  | .subscript h _ => h.starts.append _

theorem IsBinary.starts {levels : List Level} {ws : List Symbol} {e : Expr} : IsBinary levels ws e → Starts OpensExpr ws
  | .postfixed h => h.starts
  | .single h => h.starts
  | .chain h _ _ => h.starts.append _

theorem IsExpr.starts {ws : List Symbol} {e : Expr} (h : IsExpr ws e) : Starts OpensExpr ws := by
  cases h with
  | plain h => exact h.starts
  | assign h _ => exact h.starts.append _

theorem IsTail.nil_eq {level : Level} {tighter : List Level} {ws : List Symbol} (h : IsTail level tighter ws []) :
    ws = [] := by
  generalize ht : ([] : List (BinaryOp × Expr)) = tail at h
  cases h with
  | nil => rfl
  | snoc _ _ _ => exact absurd ht.symm (List.append_ne_nil_of_right_ne_nil _ (List.cons_ne_nil _ _))

/-! ## Statements -/

/-- The branches of an `if` and what follows the last of them. -/
def ifChain (branches : List (Expr × List Stmt)) (last : IfChain) : IfChain :=
  branches.foldr (fun b next => .branch b.1 b.2 next) last

mutual

inductive IsStmt : List Symbol → Stmt → Prop
  | declare (ty : Ty) (name : String) : IsStmt (typeSymbols ty ++ [.ident name, .mark ";"]) (.declare ty name)
  | ret {ws : List Symbol} {e : Expr} : IsExpr ws e → IsStmt (.keyword "return" :: ws ++ [.mark ";"]) (.ret e)
  | cond {ws : List Symbol} {branches : List (Expr × List Stmt)} :
      Separated [.keyword "else", .keyword "if"] IsGuarded ws branches →
        IsStmt (.keyword "if" :: ws) (.cond (ifChain branches .done))
  | condElse {ws vs : List Symbol} {branches : List (Expr × List Stmt)} {body : List Stmt} :
      Separated [.keyword "else", .keyword "if"] IsGuarded ws branches → Many IsStmt vs body →
        IsStmt (.keyword "if" :: ws ++ .keyword "else" :: braces vs) (.cond (ifChain branches (.otherwise body)))
  | loop {ws : List Symbol} {guard : Expr} {body : List Stmt} :
      IsGuarded ws (guard, body) → IsStmt (.keyword "while" :: ws) (.loop guard body)
  | expr {ws : List Symbol} {e : Expr} : IsExpr ws e → IsStmt (ws ++ [.mark ";"]) (.expr e)

/-- `"(" expr ")" block` -/
inductive IsGuarded : List Symbol → Expr × List Stmt → Prop
  | mk {ws vs : List Symbol} {guard : Expr} {body : List Stmt} :
      IsExpr ws guard → Many IsStmt vs body → IsGuarded (parens ws ++ braces vs) (guard, body)

end

theorem OpensExpr.ne_mark {s : Symbol} (h : OpensExpr s) {m : String} (hm : m ≠ "(") : s ≠ .mark m := by
  rintro rfl
  exact hm h

theorem OpensExpr.ne_keyword {s : Symbol} (h : OpensExpr s) (w : String) : s ≠ .keyword w := by
  rintro rfl
  exact h

theorem IsStmt.starts {ws : List Symbol} {s : Stmt} (h : IsStmt ws s) :
    Starts (fun first => first ≠ .mark "\x7d" ∧ first ≠ .keyword "else") ws := by
  cases h with
  | declare ty name =>
    refine ⟨_, _, rfl, Symbol.noConfusion, ?_⟩
    cases ty.base <;> simp [Ty.baseName]
  | ret _ | cond _ | condElse _ _ | loop _ => exact ⟨_, _, rfl, by simp, by simp⟩
  | expr h =>
    obtain ⟨first, ws, rfl, hf⟩ := h.starts
    exact ⟨first, _, rfl, hf.ne_mark (by decide), hf.ne_keyword _⟩

/-! ## Functions and programs -/

inductive IsParam : List Symbol → Param → Prop
  | mk (ty : Ty) (name : String) : IsParam (typeSymbols ty ++ [.ident name]) ⟨ty, name⟩

inductive IsFunction : List Symbol → Function → Prop
  | mk (returnType : Ty) (name : String) {ws vs : List Symbol} {params : List Param} {body : List Stmt} :
      Listed IsParam ws params → Many IsStmt vs body →
        IsFunction (typeSymbols returnType ++ .ident name :: parens ws ++ braces vs) ⟨name, returnType, params, body⟩

def IsProgram (ws : List Symbol) (p : Program) : Prop := Many IsFunction ws p.functions

end Grammar

end DotCom
