/-
  DotCom.Proofs.Parsing.Statements — reading statements finds exactly the phrases of the grammar.

  - `yields_stmt`, `reads_stmt`: what is read is a phrase, and every phrase is read unless an `else`
    stands behind it.
-/

import DotCom.Proofs.Parsing.Expressions

namespace DotCom.Reader

open Grammar

variable {r : Reading} {ss : List Symbol} {stmt : Reader Stmt}

/-- Statements in braces. -/
def IsBlock (ws : List Symbol) (body : List Stmt) : Prop := ∃ vs, ws = braces vs ∧ Many IsStmt vs body

/-! ## What is read is a phrase -/

section

variable (hs : ∀ ss, Yields r stmt ss (Found IsStmt ss))

include hs

theorem yields_nextStmt {body : Array Stmt} {ts : List Symbol} (h : Found (Many IsStmt) ss body.toList ts) :
    Yields r (nextStmt stmt body) ts fun out us =>
      out.elim (fun body => Found (Many IsStmt) ss body.toList us)
        (fun body => ∃ ws, ss = ws ++ .mark "\x7d" :: us ∧ Many IsStmt ws body.toList) := by
  obtain ⟨ws, rfl, hw⟩ := h
  refine Yields.bind (yields_acceptMark "\x7d" ts) fun b us hb => ?_
  cases b with
  | true =>
    cases hb
    exact Yields.pure ⟨ws, rfl, hw⟩
  | false =>
    cases hb
    refine Yields.bind (Yields.of_runs (P := fun _ us => us = ts) (runs_atEnd ts) rfl) fun b us e => ?_
    cases e
    cases b with
    | true => exact Yields.failHere _
    | false =>
      refine Yields.bind (hs ts) fun s us hus => ?_
      obtain ⟨vs, rfl, hv⟩ := hus
      refine Yields.pure ⟨ws ++ vs, by simp, ?_⟩
      rw [Array.toList_push]
      exact .snoc hw hv

theorem yields_block (ss : List Symbol) : Yields r (block stmt) ss (Found IsBlock ss) := by
  refine Yields.bind (yields_expectMark "\x7b" ss) fun _ ts hts => ?_
  cases hts
  refine Yields.bind (Yields.iterate (fun body us => Found (Many IsStmt) ts body.toList us) ⟨[], rfl, .nil⟩
    fun body us h => yields_nextStmt hs h) fun body us h => ?_
  obtain ⟨ws, rfl, hw⟩ := h
  exact Yields.pure ⟨braces ws, by simp [braces], ws, rfl, hw⟩

theorem yields_guarded (ss : List Symbol) : Yields r (guarded stmt) ss (Found IsGuarded ss) := by
  refine Yields.bind (yields_expectMark "(" ss) fun _ ts hts => ?_
  cases hts
  refine Yields.bind (yields_expr ts) fun guard us hus => ?_
  obtain ⟨ws, rfl, hw⟩ := hus
  refine Yields.bind (yields_expectMark ")" us) fun _ us' hus' => ?_
  cases hus'
  refine Yields.bind (yields_block hs us') fun body us'' hus'' => ?_
  obtain ⟨_, rfl, vs, rfl, hv⟩ := hus''
  exact Yields.pure ⟨parens ws ++ braces vs, by simp [parens], .mk hw hv⟩

/-- Behind the keyword of an `if`, branches have been read and `else if` behind the last of them. -/
def Branches (ss : List Symbol) (branches : Array (Expr × List Stmt)) (ts : List Symbol) : Prop :=
  (branches = #[] ∧ ts = ss) ∨ ∃ ws, ss = ws ++ .keyword "else" :: .keyword "if" :: ts ∧
    Separated [.keyword "else", .keyword "if"] IsGuarded ws branches.toList

theorem yields_nextBranch {branches : Array (Expr × List Stmt)} {ts : List Symbol} (h : Branches ss branches ts) :
    Yields r (nextBranch stmt branches) ts fun out us =>
      out.elim (Branches ss · us) fun last => ∃ ws, ss = ws ++ us ∧
        IsStmt (.keyword "if" :: ws) (.cond (Grammar.ifChain last.1.toList last.2)) := by
  refine Yields.bind (yields_guarded hs ts) fun branch us hus => ?_
  obtain ⟨vs, rfl, hv⟩ := hus
  have read : ∃ ws, ss = ws ++ us ∧
      Separated [.keyword "else", .keyword "if"] IsGuarded ws (branches.push branch).toList := by
    rcases h with ⟨rfl, rfl⟩ | ⟨ws, rfl, hw⟩
    · exact ⟨vs, rfl, .one hv⟩
    · exact ⟨ws ++ [.keyword "else", .keyword "if"] ++ vs, by simp, by rw [Array.toList_push]; exact .more hw hv⟩
  obtain ⟨ws, rfl, hw⟩ := read
  refine Yields.bind (yields_acceptKeyword "else" us) fun b us' hb => ?_
  cases b with
  | false =>
    cases hb
    exact Yields.pure ⟨ws, rfl, .cond hw⟩
  | true =>
    cases hb
    refine Yields.bind (yields_acceptKeyword "if" us') fun b us'' hb => ?_
    cases b with
    | true =>
      cases hb
      exact Yields.pure (.inr ⟨ws, rfl, hw⟩)
    | false =>
      cases hb
      refine Yields.bind (yields_block hs us') fun body rest hrest => ?_
      obtain ⟨_, rfl, es, rfl, he⟩ := hrest
      exact Yields.pure ⟨ws ++ .keyword "else" :: braces es, by simp, .condElse hw he⟩

theorem yields_ifChain (ss : List Symbol) :
    Yields r (ifChain stmt) ss (Found (fun ws chain => IsStmt (.keyword "if" :: ws) (.cond chain)) ss) := by
  refine Yields.bind (Yields.iterate (Branches ss) (.inl ⟨rfl, rfl⟩) fun _ _ h => yields_nextBranch hs h)
    fun last us h => ?_
  exact Yields.pure h

end

/-- A reader that only looks. -/
theorem yields_atKeyword {α : Type} {Q : α → List Symbol → Prop} {f : Bool → Reader α} (w : String)
    (h : ∀ b, Yields r (f b) ss Q) :
    Yields r (atKeyword w >>= f) ss Q :=
  Yields.bind (Yields.of_runs (P := fun _ us => us = ss) (runs_atKeyword w ss) rfl) fun b _ e => e ▸ h b

theorem yields_nestedStmt (n : Nat) (ss : List Symbol) : Yields r (nestedStmt n) ss (Found IsStmt ss) := by
  induction n generalizing ss with
  | zero => exact Yields.crash
  | succ n ih =>
    refine yields_atKeyword "int" fun int => yields_atKeyword "char" fun char => ?_
    cases int || char with
    | true =>
      refine Yields.bind (yields_type ss) fun ty ts hts => ?_
      cases hts
      refine Yields.bind (yields_identifier ts) fun name us hus => ?_
      cases hus
      refine Yields.bind (yields_expectMark ";" us) fun _ rest hrest => ?_
      cases hrest
      exact Yields.pure ⟨typeSymbols ty ++ [.ident name, .mark ";"], by simp, .declare ty name⟩
    | false =>
      refine Yields.bind (yields_acceptKeyword "return" ss) fun b ts hb => ?_
      cases b with
      | true =>
        cases hb
        refine Yields.bind (yields_expr ts) fun e us hus => ?_
        obtain ⟨ws, rfl, hw⟩ := hus
        refine Yields.bind (yields_expectMark ";" us) fun _ rest hrest => ?_
        cases hrest
        exact Yields.pure ⟨.keyword "return" :: ws ++ [.mark ";"], by simp, .ret hw⟩
      | false =>
        cases hb
        refine Yields.bind (yields_acceptKeyword "if" ss) fun b ts hb => ?_
        cases b with
        | true =>
          cases hb
          refine Yields.bind (yields_ifChain ih ts) fun chain us hus => ?_
          obtain ⟨ws, rfl, hw⟩ := hus
          exact Yields.pure ⟨.keyword "if" :: ws, rfl, hw⟩
        | false =>
          cases hb
          refine Yields.bind (yields_acceptKeyword "while" ss) fun b ts hb => ?_
          cases b with
          | true =>
            cases hb
            refine Yields.bind (yields_guarded ih ts) fun gb us hus => ?_
            obtain ⟨ws, rfl, hw⟩ := hus
            exact Yields.pure ⟨.keyword "while" :: ws, rfl, .loop hw⟩
          | false =>
            cases hb
            refine Yields.bind (yields_expr ss) fun e us hus => ?_
            obtain ⟨ws, rfl, hw⟩ := hus
            refine Yields.bind (yields_expectMark ";" us) fun _ rest hrest => ?_
            cases hrest
            exact Yields.pure ⟨ws ++ [.mark ";"], by simp, .expr hw⟩

theorem yields_stmt (ss : List Symbol) : Yields r Reader.stmt ss (Found IsStmt ss) := yields_nestedStmt r.limit ss

/-! ## Every phrase is read -/

/-- A reader reads every statement of at most `n` symbols that is not followed by an `else`. -/
def ReadsStmt (r : Reading) (stmt : Reader Stmt) (n : Nat) : Prop :=
  ∀ ws s rest, IsStmt ws s → ws.length ≤ n → rest.head? ≠ some (.keyword "else") → (ws ++ rest).length < r.limit →
    Runs r stmt (ws ++ rest) s rest

section

variable {n : Nat} (hs : ReadsStmt r stmt n)

include hs

/-- Statements one behind the other, up to a symbol that is no `else`. -/
theorem laps_nextStmt {ws : List Symbol} {body : List Stmt} (h : Many IsStmt ws body) (hn : ws.length ≤ n)
    (rest : List Symbol) (hr : rest.head? ≠ some (.keyword "else")) (hl : (ws ++ rest).length < r.limit) :
    Laps r (nextStmt stmt) #[] (ws ++ rest) body.toArray rest := by
  induction h generalizing rest with
  | nil => exact Laps.none
  | @snoc ws vs body s _ hv ih =>
    rw [List.append_assoc] at hl ⊢
    rw [List.length_append] at hn hl
    obtain ⟨first, vs, rfl, notClose, notElse⟩ := hv.starts
    have before := ih (by omega) (first :: vs ++ rest) (by simpa using notElse) (by rw [List.length_append]; omega)
    have read := hs _ s rest hv (by omega) hr (by omega)
    rw [← List.push_toArray]
    refine before.snoc ((runs_acceptMark_false (by simpa using notClose)).bind ?_)
      (by simp only [List.cons_append, List.length_cons, List.length_append]; omega)
    exact (runs_atEnd (first :: vs ++ rest)).bind (read.bind (Runs.pure _))

theorem runs_block {ws : List Symbol} {body : List Stmt} (h : Many IsStmt ws body) (hn : ws.length ≤ n)
    (rest : List Symbol)
    (hl : (braces ws ++ rest).length < r.limit) : Runs r (block stmt) (braces ws ++ rest) body rest := by
  simp only [braces, List.cons_append, List.append_assoc, List.nil_append] at hl ⊢
  have laps := laps_nextStmt hs h hn (.mark "\x7d" :: rest) (by simp) (Nat.lt_of_succ_lt hl)
  have close : Runs r (nextStmt stmt body.toArray) (.mark "\x7d" :: rest) (.inr body.toArray) rest :=
    (runs_acceptMark "\x7d" rest).bind (Runs.pure _)
  exact (runs_expectMark "\x7b" _).bind ((Runs.iterate laps close (Nat.lt_of_succ_lt hl)).bind (Runs.pure _))

theorem runs_guarded {ws : List Symbol} {branch : Expr × List Stmt} (h : IsGuarded ws branch) (hn : ws.length ≤ n + 4)
    (rest : List Symbol) (hl : (ws ++ rest).length < r.limit) : Runs r (guarded stmt) (ws ++ rest) branch rest := by
  cases h with
  | @mk ws vs guard body h hv =>
    have body' := runs_block hs hv (by simp [parens, braces] at hn; omega) rest (by simp at hl ⊢; omega)
    rw [List.append_assoc] at hl ⊢
    simp only [parens, List.cons_append, List.append_assoc, List.nil_append] at hl ⊢
    have guard' := runs_expr h (clear_mark (by decide) (braces vs ++ rest)) (Nat.lt_of_succ_lt hl)
    exact (runs_expectMark "(" _).bind (guard'.bind ((runs_expectMark ")" _).bind (body'.bind (Runs.pure _))))

omit hs in
theorem runs_nextBranch_elseIf (branches : Array (Expr × List Stmt)) {branch : Expr × List Stmt} {ts rest : List Symbol}
    (h : Runs r (guarded stmt) ts branch (.keyword "else" :: .keyword "if" :: rest)) :
    Runs r (nextBranch stmt branches) ts (.inl (branches.push branch)) rest :=
  h.bind ((runs_acceptKeyword "else" _).bind ((runs_acceptKeyword "if" rest).bind (Runs.pure _)))

/-- Branches one behind the other, up to the `else if` behind the last of them. -/
theorem laps_nextBranch {ws : List Symbol} {branches : List (Expr × List Stmt)}
    (h : Separated [.keyword "else", .keyword "if"] IsGuarded ws branches) (hn : ws.length ≤ n + 4) (rest : List Symbol)
    (hl : (ws ++ .keyword "else" :: .keyword "if" :: rest).length < r.limit) :
    Laps r (nextBranch stmt) #[] (ws ++ .keyword "else" :: .keyword "if" :: rest) branches.toArray rest := by
  induction h generalizing rest with
  | one hv => exact Laps.none.snoc (runs_nextBranch_elseIf #[] (runs_guarded hs hv hn _ hl)) (by simp; omega)
  | @more ws vs branches branch _ hv ih =>
    simp only [List.append_assoc, List.cons_append, List.nil_append, List.length_append, List.length_cons] at hl hn ih ⊢
    have before := ih (by omega) (vs ++ .keyword "else" :: .keyword "if" :: rest) (by simp; omega)
    have read := runs_guarded hs hv (by omega) (.keyword "else" :: .keyword "if" :: rest) (by simp; omega)
    have lap := before.snoc (runs_nextBranch_elseIf branches.toArray read) (by simp; omega)
    rwa [List.push_toArray] at lap

/-- A whole `if` behind its keyword, given how its last branch is read. -/
theorem runs_ifChain {ws : List Symbol} {branches : List (Expr × List Stmt)} {last : IfChain} {ts rest : List Symbol}
    (h : Separated [.keyword "else", .keyword "if"] IsGuarded ws branches) (hn : ws.length ≤ n + 4)
    (hl : (ws ++ ts).length < r.limit)
    (hlast : ∀ branches branch us, Runs r (guarded stmt) us branch ts →
      Runs r (nextBranch stmt branches) us (.inr (branches.push branch, last)) rest) :
    Runs r (ifChain stmt) (ws ++ ts) (Grammar.ifChain branches last) rest := by
  cases h with
  | @one vs branch hv =>
    have step := hlast #[] branch _ (runs_guarded hs hv hn ts hl)
    exact (Runs.iterate Laps.none step hl).bind (Runs.pure _)
  | @more ws vs branches branch h hv =>
    simp only [List.append_assoc, List.cons_append, List.nil_append, List.length_append, List.length_cons] at hl hn ⊢
    have before := laps_nextBranch hs h (by omega) (vs ++ ts) (by simp; omega)
    have step := hlast branches.toArray branch _ (runs_guarded hs hv (by omega) ts (by simp; omega))
    rw [List.push_toArray] at step
    exact (Runs.iterate before step (by simp; omega)).bind (Runs.pure _)

theorem runs_cond {ws : List Symbol} {branches : List (Expr × List Stmt)}
    (h : Separated [.keyword "else", .keyword "if"] IsGuarded ws branches) (hn : ws.length ≤ n + 4) {rest : List Symbol}
    (hr : rest.head? ≠ some (.keyword "else")) (hl : (ws ++ rest).length < r.limit) :
    Runs r (ifChain stmt) (ws ++ rest) (Grammar.ifChain branches .done) rest :=
  runs_ifChain hs h hn hl fun _ _ _ read => read.bind ((runs_acceptKeyword_false hr).bind (Runs.pure _))

theorem runs_condElse {ws vs : List Symbol} {branches : List (Expr × List Stmt)} {body : List Stmt}
    (h : Separated [.keyword "else", .keyword "if"] IsGuarded ws branches) (hb : Many IsStmt vs body)
    (hn : (ws ++ .keyword "else" :: braces vs).length ≤ n + 1) (rest : List Symbol)
    (hl : (ws ++ .keyword "else" :: braces vs ++ rest).length < r.limit) :
    Runs r (ifChain stmt) (ws ++ .keyword "else" :: braces vs ++ rest)
      (Grammar.ifChain branches (.otherwise body)) rest := by
  rw [List.append_assoc] at hl ⊢
  simp only [List.length_append, List.length_cons, List.cons_append] at hn hl
  have block := runs_block hs hb (by simp [braces] at hn; omega) rest (by rw [List.length_append]; omega)
  refine runs_ifChain hs h (by omega) (by simp; omega) fun _ _ _ read => ?_
  exact read.bind ((runs_acceptKeyword "else" _).bind ((runs_acceptKeyword_false (by simp [braces])).bind
    (block.bind (Runs.pure _))))

end

theorem runs_atKeyword_false {w : String} (h : ss.head? ≠ some (.keyword w)) : Runs r (atKeyword w) ss false ss := by
  have look := runs_atKeyword (r := r) w ss
  rwa [decide_eq_false h] at look

theorem runs_declare (n : Nat) (ty : Ty) (name : String) (rest : List Symbol)
    (hl : (typeSymbols ty ++ .ident name :: .mark ";" :: rest).length < r.limit) :
    Runs r (nestedStmt (n + 1)) (typeSymbols ty ++ .ident name :: .mark ";" :: rest) (.declare ty name) rest := by
  have isType : ∀ ss, ((typeSymbols ty ++ ss).head? = some (.keyword "int") ∨
      (typeSymbols ty ++ ss).head? = some (.keyword "char")) := by
    intro ss
    cases hb : ty.base with
    | int => exact .inl (by simp [typeSymbols, hb, Ty.baseName])
    | char => exact .inr (by simp [typeSymbols, hb, Ty.baseName])
  refine (runs_atKeyword "int" _).bind ((runs_atKeyword "char" _).bind ?_)
  rw [← Bool.decide_or, decide_eq_true (isType _)]
  exact (runs_type ty (by simp) hl).bind ((runs_identifier name _).bind ((runs_expectMark ";" rest).bind (Runs.pure _)))

theorem reads_nestedStmt (n : Nat) : ReadsStmt r (nestedStmt n) n := by
  induction n with
  | zero =>
    intro ws s rest h hn
    obtain ⟨first, ws', rfl, -⟩ := h.starts
    simp at hn
  | succ n ih =>
    intro ws s rest h hn hr hl
    cases h with
    | declare ty name =>
      rw [List.append_assoc] at hl ⊢
      exact runs_declare n ty name rest hl
    | @ret ws e h =>
      simp only [List.cons_append, List.append_assoc, List.nil_append, List.length_cons] at hl ⊢
      refine (runs_atKeyword_false (by simp)).bind ((runs_atKeyword_false (by simp)).bind ?_)
      refine (runs_acceptKeyword "return" _).bind ?_
      have read := runs_expr h (clear_mark (by decide) rest) (Nat.lt_of_succ_lt hl)
      exact read.bind ((runs_expectMark ";" rest).bind (Runs.pure _))
    | @cond ws branches h =>
      simp only [List.length_cons, List.cons_append] at hn hl ⊢
      refine (runs_atKeyword_false (by simp)).bind ((runs_atKeyword_false (by simp)).bind ?_)
      refine (runs_acceptKeyword_false (by simp)).bind ((runs_acceptKeyword "if" _).bind ?_)
      exact (runs_cond ih h (by omega) hr (by omega)).bind (Runs.pure _)
    | @condElse ws vs branches body h hb =>
      simp only [List.length_cons, List.cons_append] at hn hl ⊢
      refine (runs_atKeyword_false (by simp)).bind ((runs_atKeyword_false (by simp)).bind ?_)
      refine (runs_acceptKeyword_false (by simp)).bind ((runs_acceptKeyword "if" _).bind ?_)
      exact (runs_condElse ih h hb (by omega) rest (by omega)).bind (Runs.pure _)
    | @loop ws guard body h =>
      simp only [List.length_cons, List.cons_append] at hn hl ⊢
      refine (runs_atKeyword_false (by simp)).bind ((runs_atKeyword_false (by simp)).bind ?_)
      refine (runs_acceptKeyword_false (by simp)).bind ((runs_acceptKeyword_false (by simp)).bind ?_)
      exact (runs_acceptKeyword "while" _).bind ((runs_guarded ih h (by omega) rest (by omega)).bind (Runs.pure _))
    | @expr ws e h =>
      rw [List.append_assoc] at hl ⊢
      have read := runs_expr h (clear_mark (by decide) rest) hl
      obtain ⟨first, ws', rfl, hf⟩ := h.starts
      have opens (w : String) : (first :: ws' ++ ([Symbol.mark ";"] ++ rest)).head? ≠ some (.keyword w) := by
        simpa using hf.ne_keyword w
      refine (runs_atKeyword_false (opens _)).bind ((runs_atKeyword_false (opens _)).bind ?_)
      refine (runs_acceptKeyword_false (opens _)).bind ((runs_acceptKeyword_false (opens _)).bind ?_)
      exact (runs_acceptKeyword_false (opens _)).bind (read.bind ((runs_expectMark ";" rest).bind (Runs.pure _)))

theorem reads_stmt : ReadsStmt r Reader.stmt r.limit := reads_nestedStmt r.limit

end DotCom.Reader
