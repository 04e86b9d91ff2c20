/-
  DotCom.Proofs.Parsing.Programs — a program is read off a source text exactly when the grammar
  derives it from the symbols of the text.

  - `ofTokens_eq_ok_iff`: the same of tokens that have been scanned.
  - `parse_eq_ok_iff`: scanning and reading together.
-/

import DotCom.Proofs.Parsing.Statements
import DotCom.Proofs.Scanning

namespace DotCom

namespace Reader

open Grammar

variable {r : Reading}

/-! ## What is read is a phrase -/

theorem yields_param (ss : List Symbol) : Yields r param ss (Found IsParam ss) := by
  refine Yields.bind (yields_type ss) fun ty ts hts => ?_
  cases hts
  refine Yields.bind (yields_identifier ts) fun name us hus => ?_
  cases hus
  exact Yields.pure ⟨typeSymbols ty ++ [.ident name], by simp, .mk ty name⟩

theorem yields_function (ss : List Symbol) : Yields r function ss (Found IsFunction ss) := by
  refine Yields.bind (yields_type ss) fun ty ts hts => ?_
  cases hts
  refine Yields.bind (yields_identifier ts) fun name us hus => ?_
  cases hus
  refine Yields.bind (yields_expectMark "(" us) fun _ rest hrest => ?_
  cases hrest
  refine Yields.bind (yields_listed yields_param rest) fun params vs hvs => ?_
  obtain ⟨_, rfl, ws, rfl, hw⟩ := hvs
  refine Yields.bind (yields_block yields_stmt vs) fun body last hlast => ?_
  obtain ⟨_, rfl, bs, rfl, hb⟩ := hlast
  exact Yields.pure ⟨typeSymbols ty ++ .ident name :: parens ws ++ braces bs, by simp [parens], .mk ty name hw hb⟩

theorem yields_functions (ss : List Symbol) : Yields r functions ss fun fs _ => Many IsFunction ss fs := by
  have loop : Yields r (iterate nextFunction #[]) ss fun fs _ => Many IsFunction ss fs.toList := by
    refine Yields.iterate (fun fs ts => Found (Many IsFunction) ss fs.toList ts) ⟨[], rfl, .nil⟩ fun fs ts h => ?_
    obtain ⟨ws, rfl, hw⟩ := h
    refine Yields.bind (Yields.of_runs (P := fun b us => b = ts.isEmpty ∧ us = ts) (runs_atEnd ts) ⟨rfl, rfl⟩)
      fun b us hb => ?_
    obtain ⟨hb, rfl⟩ := hb
    cases b with
    | true =>
      obtain rfl := List.isEmpty_iff.1 hb.symm
      refine Yields.pure ?_
      simpa using hw
    | false =>
      refine Yields.bind (yields_function us) fun f rest hf => ?_
      obtain ⟨vs, rfl, hv⟩ := hf
      refine Yields.pure ⟨ws ++ vs, by simp, ?_⟩
      rw [Array.toList_push]
      exact .snoc hw hv
  exact Yields.bind loop fun _ _ h => Yields.pure h

/-! ## Every phrase is read -/

theorem reads_param (n : Nat) : ReadsItems r IsParam param n := by
  rintro _ _ rest ⟨ty, name⟩ _ _ hl
  rw [List.append_assoc] at hl ⊢
  exact (runs_type ty (by simp) hl).bind ((runs_identifier name rest).bind (Runs.pure _))

theorem IsParam.starts {ws : List Symbol} {p : Param} (h : IsParam ws p) : Starts (· ≠ .mark ")") ws := by
  cases h
  exact ⟨_, _, rfl, Symbol.noConfusion⟩

theorem runs_function {ws : List Symbol} {f : Function} (h : IsFunction ws f) (rest : List Symbol)
    (hl : (ws ++ rest).length < r.limit) : Runs r function (ws ++ rest) f rest := by
  cases h with
  | @mk ty name ps bs params body hp hb =>
    simp only [parens, List.append_assoc, List.cons_append, List.nil_append] at hl ⊢
    have size := hl
    simp only [List.length_append, List.length_cons] at size
    have list := runs_listed (r := r) (reads_param ps.length) (fun _ _ => IsParam.starts) hp (Nat.le_refl _)
      (braces bs ++ rest)
      (by simp; omega)
    have block := runs_block (r := r) reads_stmt hb (by simp [braces] at size; omega) rest (by simp; omega)
    refine (runs_type ty (by simp) hl).bind ((runs_identifier name _).bind ((runs_expectMark "(" _).bind ?_))
    exact list.bind (block.bind (Runs.pure _))

theorem IsFunction.starts {ws : List Symbol} {f : Function} (h : IsFunction ws f) : Starts (fun _ => True) ws := by
  cases h
  exact ⟨_, _, rfl, trivial⟩

theorem laps_nextFunction {ws : List Symbol} {fs : List Function} (h : Many IsFunction ws fs) (rest : List Symbol)
    (hl : (ws ++ rest).length < r.limit) : Laps r nextFunction #[] (ws ++ rest) fs.toArray rest := by
  induction h generalizing rest with
  | nil => exact Laps.none
  | @snoc ws vs fs f _ hv ih =>
    rw [List.append_assoc] at hl ⊢
    rw [List.length_append] at hl
    obtain ⟨first, vs, rfl, -⟩ := IsFunction.starts hv
    have before := ih (first :: vs ++ rest) (by rw [List.length_append]; omega)
    have read := runs_function (r := r) hv rest (by omega)
    rw [← List.push_toArray]
    refine before.snoc ((runs_atEnd (first :: vs ++ rest)).bind ?_)
      (by simp only [List.cons_append, List.length_cons, List.length_append]; omega)
    exact read.bind (Runs.pure _)

theorem runs_functions {ws : List Symbol} {fs : List Function} (h : Many IsFunction ws fs) (hl : ws.length < r.limit) :
    Runs r functions ws fs [] := by
  have laps := laps_nextFunction h [] (by simpa using hl)
  rw [List.append_nil] at laps
  have last : Runs r (nextFunction fs.toArray) [] (.inr fs.toArray) [] := (runs_atEnd []).bind (Runs.pure _)
  exact (Runs.iterate laps last hl).bind (Runs.pure _)

end Reader

/-! ## Whole programs -/

namespace Token

theorem length_lt_of_symbols? {source : String} {tokens : List Token} {ss : List Symbol}
    (h : symbols? source tokens = some ss) :
    ss.length < tokens.length := by
  induction tokens generalizing ss with
  | nil => cases h
  | cons t tokens ih =>
    rw [symbols?] at h
    split at h
    · cases h
      simp
    · obtain ⟨s, -, h⟩ := Option.bind_eq_some_iff.1 h
      obtain ⟨ss, hss, rfl⟩ := Option.map_eq_some_iff.1 h
      exact Nat.succ_lt_succ (ih hss)

theorem spells_of_symbols? {source : String} {tokens : List Token} {ss : List Symbol}
    (h : symbols? source tokens = some ss) :
    Spells (tokens.map (lexeme source)) ss := by
  induction tokens generalizing ss with
  | nil => cases h
  | cons t tokens ih =>
    rw [symbols?] at h
    split at h
    · cases h
      assumption
    · obtain ⟨s, hs, h⟩ := Option.bind_eq_some_iff.1 h
      obtain ⟨ss, hss, rfl⟩ := Option.map_eq_some_iff.1 h
      exact ⟨hs, ih hss⟩

end Token

namespace Program

theorem ofTokens_eq_bind (source : String) (tokens : List Token) :
    ofTokens source tokens =
      ((Reader.functions ⟨source, tokens.length + 1⟩ (tokens.map (Token.lexeme source))).mapError Halt.failure).bind
        fun out => .ok ⟨out.1⟩ := rfl

theorem ofTokens_eq_ok_iff {source : String} {tokens : List Token} {ss : List Symbol}
    (h : Token.symbols? source tokens = some ss) (p : Program) :
    ofTokens source tokens = .ok p ↔ Grammar.IsProgram ss p := by
  have spells := Token.spells_of_symbols? h
  rw [ofTokens_eq_bind]
  constructor
  · intro hp
    cases hf : Reader.functions ⟨source, tokens.length + 1⟩ (tokens.map (Token.lexeme source)) with
    | error e =>
      rw [hf] at hp
      cases hp
    | ok out =>
      rw [hf] at hp
      cases hp
      obtain ⟨_, -, hfs⟩ := Reader.yields_functions ss _ out.1 out.2 spells hf
      exact hfs
  · intro hp
    obtain ⟨ls, hf, -⟩ := Reader.runs_functions (r := ⟨source, tokens.length + 1⟩) hp
      (Nat.lt_succ_of_lt (Token.length_lt_of_symbols? h)) _ spells
    rw [hf]
    rfl

theorem parse_eq_ok_iff {source : String} {p : Program} :
    parse source = .ok p ↔ ∃ ss, Token.Scans source.toList ss ∧ Grammar.IsProgram ss p := by
  unfold parse
  constructor
  · intro h
    cases hs : Token.scan source with
    | error e =>
      rw [hs] at h
      cases h
    | ok tokens =>
      rw [hs] at h
      obtain ⟨ss, hss, hsym⟩ := Token.scan_eq_ok hs
      exact ⟨ss, hss, (ofTokens_eq_ok_iff hsym p).1 h⟩
  · rintro ⟨ss, hss, hp⟩
    obtain ⟨tokens, hs, hsym⟩ := hss.scan
    rw [hs]
    exact (ofTokens_eq_ok_iff hsym p).2 hp

/-- On the tokens of a source text, a program is read exactly when the grammar derives it from what
    stands before the end. -/
theorem ofTokens_iff_derives {source : String} {tokens : List Token} (h : Token.scan source = .ok tokens) :
    ∃ symbols, Token.symbols? source tokens = some symbols ∧
      ∀ p, ofTokens source tokens = .ok p ↔ Grammar.IsProgram symbols p := by
  obtain ⟨symbols, -, hsym⟩ := Token.scan_eq_ok h
  exact ⟨symbols, hsym, ofTokens_eq_ok_iff hsym⟩

theorem parenthesised_callee_derives :
    ∃ tokens, Token.scan "int f()\x7b(f)(1);\x7d" = .ok tokens ∧
      ∃ symbols, Token.symbols? "int f()\x7b(f)(1);\x7d" tokens = some symbols ∧
        ∀ p, ofTokens "int f()\x7b(f)(1);\x7d" tokens = .ok p ↔ Grammar.IsProgram symbols p := by
  have scanned : Token.scan "int f()\x7b(f)(1);\x7d" = .ok
      [⟨.keyword, 0, 3⟩, ⟨.ident, 4, 1⟩, ⟨.mark, 5, 1⟩, ⟨.mark, 6, 1⟩, ⟨.mark, 7, 1⟩, ⟨.mark, 8, 1⟩,
        ⟨.ident, 9, 1⟩,
        ⟨.mark, 10, 1⟩, ⟨.mark, 11, 1⟩, ⟨.number (some 1), 12, 1⟩, ⟨.mark, 13, 1⟩, ⟨.mark, 14, 1⟩,
        ⟨.mark, 15, 1⟩, ⟨.eof, 16, 0⟩] := by
    simp [Token.scan, Token.scanFrom, Token.munch, Token.isBlank, Token.isWordStart, Token.isWordChar, Token.takeWord,
      Token.keywords, Token.takeMark, Token.doubleMarks, Token.singleMarks, Token.takeNumber, Token.decimal,
      Token.maxNumber]
  exact ⟨_, scanned, ofTokens_iff_derives scanned⟩

end Program

end DotCom
