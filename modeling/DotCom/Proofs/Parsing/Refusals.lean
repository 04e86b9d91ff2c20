/-
  DotCom.Proofs.Parsing.Refusals — a source text that is not read is refused with a diagnostic at a
  place of the text (`Program.diagnoses_parse`); the refusals of code generation are none of these.
-/

import DotCom.Proofs.Parsing.Places

namespace DotCom

/-- A failure of the front end: a diagnostic, or a crash. -/
def Failure.IsDiagnostic (e : Failure) : Prop := e = .crashed ∨ ∃ place cause, e = .rejected (.located place cause)

theorem Failure.isDiagnostic_at (source : String) (loc : Nat) (cause : SyntaxError) :
    (Failure.at source loc cause).IsDiagnostic := by
  unfold Failure.at
  split
  · exact .inr ⟨_, _, rfl⟩
  · exact .inl rfl

theorem Token.diagnoses_scan {source : String} {e : Failure} (h : Token.scan source = .error e) : e.IsDiagnostic := by
  unfold Token.scan at h
  split at h <;> cases h
  exact Failure.isDiagnostic_at ..

/-- Reading mirrors itself on one text, and only diagnostics are alike. -/
theorem Reader.diagnoses_functions {r : Reading} {ls : List Lexeme} {halt : Halt} (h : functions r ls = .error halt) :
    halt.failure.IsDiagnostic := by
  have tokens : List.Forall₂ (Twins.Lexemes ⟨r.source, r.source, r.limit⟩) ls ls :=
    List.forall₂_same.2 fun _ _ => ⟨rfl, rfl, rfl⟩
  have read : Outcomes _ Eq (functions r ls) (functions r ls) := Mirrors.functions ls ls tokens
  rw [h] at read
  rcases halt with ⟨e, left⟩
  rcases read with _ | ⟨_ | ⟨place, _, cause⟩⟩
  · exact .inl rfl
  · exact .inr ⟨_, cause, rfl⟩

theorem Program.diagnoses_parse {source : String} {e : Failure} (h : Program.parse source = .error e) :
    e.IsDiagnostic := by
  unfold Program.parse at h
  cases hs : Token.scan source with
  | error e' =>
    rw [hs] at h
    cases h
    exact Token.diagnoses_scan hs
  | ok tokens =>
    rw [hs] at h
    change ofTokens source tokens = .error e at h
    rw [ofTokens_eq_bind] at h
    cases hf : Reader.functions ⟨source, tokens.length + 1⟩ (tokens.map (Token.lexeme source)) with
    | error e' =>
      rw [hf] at h
      cases h
      exact Reader.diagnoses_functions hf
    | ok out =>
      rw [hf] at h
      cases h

end DotCom
