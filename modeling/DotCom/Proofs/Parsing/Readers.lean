/-
  DotCom.Proofs.Parsing.Readers — what readers do, said of symbols instead of tokens. Only the
  symbol of a token decides whether a reader goes on; places and spans matter to diagnostics alone.

  - `Runs`: a reader succeeds on some symbols, with a result and symbols that are left.
  - `Yields`: whenever a reader succeeds, its result and what it left are related to what it found.

  Each has a rule for sequencing and one for repetition. A lap of a loop that takes a symbol is
  within the limit of the reading, which is above the number of symbols.
-/

import DotCom.Program.Parse
import DotCom.Proofs.Grammar

namespace DotCom

/-- Tokens that stand for symbols, up to the end of the source. -/
def Spells : List Lexeme → List Symbol → Prop
  | l :: ls, s :: ss => l.symbol? = some s ∧ Spells ls ss
  | l :: _, [] => l.token.kind = .eof
  | [], _ => False

/-- The first of some symbols is not one of these marks. -/
def Clear (marks : List String) (ss : List Symbol) : Prop := ∀ m ∈ marks, ss.head? ≠ some (.mark m)

def Symbol.mark? : Symbol → Option String
  | .mark m => some m
  | _ => none

theorem eq_mark_of_head? {ss : List Symbol} {m : String} (h : ss.head?.bind Symbol.mark? = some m) :
    ∃ ts, ss = .mark m :: ts := by
  rcases ss with _ | ⟨s, ts⟩
  · cases h
  · cases s with
    | mark t =>
      cases h
      exact ⟨ts, rfl⟩
    | keyword _ | ident _ | number _ | str _ => cases h

/-- What a symbol tells about its token. -/
def Lexeme.Is (l : Lexeme) : Symbol → Prop
  | .mark m => l.token.kind = .mark ∧ l.text? = some m
  | .keyword w => l.token.kind = .keyword ∧ l.text? = some w
  | .ident n => l.token.kind = .ident ∧ l.text? = some n
  | .number v => l.token.kind = .number (some v)
  | .str t => l.token.kind = .str (some t)

theorem Lexeme.is_of_symbol? {l : Lexeme} {s : Symbol} (h : l.symbol? = some s) : l.Is s := by
  unfold Lexeme.symbol? Token.Kind.symbol? at h
  split at h
  · obtain ⟨t, ht, rfl⟩ := Option.map_eq_some_iff.1 h
    exact ⟨‹_›, ht⟩
  · obtain ⟨t, ht, rfl⟩ := Option.map_eq_some_iff.1 h
    exact ⟨‹_›, ht⟩
  · obtain ⟨t, ht, rfl⟩ := Option.map_eq_some_iff.1 h
    exact ⟨‹_›, ht⟩
  · rename_i hk
    obtain ⟨t, rfl, rfl⟩ := Option.map_eq_some_iff.1 h
    exact hk
  · rename_i hk
    obtain ⟨t, rfl, rfl⟩ := Option.map_eq_some_iff.1 h
    exact hk
  · cases h

namespace Spells

theorem cons {ls : List Lexeme} {s : Symbol} {ss : List Symbol} (h : Spells ls (s :: ss)) :
    ∃ l ls', ls = l :: ls' ∧ l.Is s ∧ Spells ls' ss := by
  cases ls with
  | nil => exact h.elim
  | cons l ls => exact ⟨l, ls, rfl, Lexeme.is_of_symbol? h.1, h.2⟩

theorem nil {ls : List Lexeme} (h : Spells ls []) : ∃ l ls', ls = l :: ls' ∧ l.token.kind = .eof := by
  cases ls with
  | nil => exact h.elim
  | cons l ls => exact ⟨l, ls, rfl, h⟩

end Spells

namespace Reader

variable {α β σ : Type} {r : Reading} {x : Reader α} {f : α → Reader β} {ss ts us : List Symbol} {a : α} {b : β}

theorem bind_run (x : Reader α) (f : α → Reader β) (r : Reading) (ls : List Lexeme) :
    (x >>= f) r ls = (x r ls).bind fun out => f out.1 r out.2 := by
  show (x r ls >>= fun out => f out.1 r out.2) = _
  rfl

/-- A failure looks at the next token once, for its name. -/
theorem failHere_run (cause : String → SyntaxError) (r : Reading) (ls : List Lexeme) :
    (failHere cause : Reader α) r ls = (match Lexeme.describe? ls.head? with
      | some got => do failAt (← loc) (cause got)
      | none => crash : Reader α) r ls := rfl

/-! ## Runs -/

/-- On tokens that spell `ss` a reader gives `a` and leaves tokens that spell `ts`. -/
def Runs (r : Reading) (x : Reader α) (ss : List Symbol) (a : α) (ts : List Symbol) : Prop :=
  ∀ ls, Spells ls ss → ∃ ls', x r ls = .ok (a, ls') ∧ Spells ls' ts

namespace Runs

theorem pure (a : α) : Runs r (pure a) ss a ss := by
  intro ls hs
  exact ⟨ls, rfl, hs⟩

theorem bind (hx : Runs r x ss a ts) (hf : Runs r (f a) ts b us) : Runs r (x >>= f) ss b us := by
  intro ls hs
  obtain ⟨ls', h1, hs'⟩ := hx ls hs
  obtain ⟨ls'', h2, hs''⟩ := hf ls' hs'
  exact ⟨ls'', by rw [bind_run, h1]; exact h2, hs''⟩

/-- A reader that only looks where it is. -/
theorem loc {f : Nat → Reader β} (hf : ∀ n, Runs r (f n) ss b ts) : Runs r (Reader.loc >>= f) ss b ts := by
  intro ls hs
  obtain ⟨n, hn⟩ : ∃ n, Reader.loc r ls = .ok (n, ls) := by
    cases ls with
    | nil => exact ⟨_, rfl⟩
    | cons l ls => exact ⟨_, rfl⟩
  obtain ⟨ls', h, hs'⟩ := hf n ls hs
  exact ⟨ls', by rw [bind_run, hn]; exact h, hs'⟩

end Runs

/-! ## Yields -/

/-- When a reader succeeds on tokens that spell `ss`, its result and the symbols it leaves satisfy `Q`. -/
def Yields (r : Reading) (x : Reader α) (ss : List Symbol) (Q : α → List Symbol → Prop) : Prop :=
  ∀ ls a ls', Spells ls ss → x r ls = .ok (a, ls') → ∃ ts, Spells ls' ts ∧ Q a ts

/-- A phrase was taken off the front of `ss`, and `ts` is left. -/
def Found (phrase : List Symbol → α → Prop) (ss : List Symbol) (a : α) (ts : List Symbol) : Prop :=
  ∃ ws, ss = ws ++ ts ∧ phrase ws a

namespace Yields

variable {P : α → List Symbol → Prop} {Q : β → List Symbol → Prop}

theorem pure {P : α → List Symbol → Prop} (h : P a ss) : Yields r (pure a) ss P := by
  intro ls a' ls' hs he
  cases he
  exact ⟨ss, hs, h⟩

theorem bind (hx : Yields r x ss P) (hf : ∀ a ts, P a ts → Yields r (f a) ts Q) : Yields r (x >>= f) ss Q := by
  intro ls b ls'' hs he
  rw [bind_run] at he
  cases h1 : x r ls with
  | error e =>
    rw [h1] at he
    cases he
  | ok out =>
    obtain ⟨a, ls'⟩ := out
    rw [h1] at he
    obtain ⟨ts, hs', hP⟩ := hx ls a ls' hs h1
    exact hf a ts hP ls' b ls'' hs' he

theorem mono {P' : α → List Symbol → Prop} (hx : Yields r x ss P) (h : ∀ a ts, P a ts → P' a ts) :
    Yields r x ss P' := by
  intro ls a ls' hs he
  obtain ⟨ts, hs', hP⟩ := hx ls a ls' hs he
  exact ⟨ts, hs', h a ts hP⟩

/-- A reader that is known to run gives nothing else. -/
theorem of_runs (hx : Runs r x ss a ts) (h : P a ts) : Yields r x ss P := by
  intro ls a' ls' hs he
  obtain ⟨ls'', h1, hs'⟩ := hx ls hs
  rw [h1] at he
  cases he
  exact ⟨ts, hs', h⟩

theorem loc {f : Nat → Reader β} (hf : ∀ n, Yields r (f n) ss Q) : Yields r (Reader.loc >>= f) ss Q := by
  refine bind (P := fun _ ts => ts = ss) ?_ fun n ts e => e ▸ hf n
  intro ls n ls' hs he
  refine ⟨ss, ?_, rfl⟩
  cases ls with
  | nil => cases he; exact hs
  | cons l ls => cases he; exact hs

/-- A reader that always fails. -/
theorem fails (h : ∀ ls, ∃ e, x r ls = .error e) : Yields r x ss P := by
  intro ls a ls' _ he
  obtain ⟨e, h⟩ := h ls
  rw [h] at he
  cases he

theorem crash : Yields r (Reader.crash : Reader α) ss P := fails fun _ => ⟨_, rfl⟩

theorem failAt (n : Nat) (cause : SyntaxError) : Yields r (Reader.failAt n cause : Reader α) ss P :=
  fails fun _ => ⟨_, rfl⟩

theorem failHere (cause : String → SyntaxError) : Yields r (Reader.failHere cause : Reader α) ss P := by
  refine fails fun ls => ?_
  rw [failHere_run]
  cases Lexeme.describe? ls.head? with
  | none => exact ⟨_, rfl⟩
  | some got =>
    cases ls with
    | nil => exact ⟨_, rfl⟩
    | cons l ls => exact ⟨_, rfl⟩

end Yields

/-! ## Repetition -/

/-- Some laps of a loop, each of which takes at least one symbol. -/
inductive Laps (r : Reading) (step : σ → Reader (σ ⊕ β)) (s : σ) (ss : List Symbol) : σ → List Symbol → Prop
  | none : Laps r step s ss s ss
  | snoc {s' s'' : σ} {ts us : List Symbol} :
      Laps r step s ss s' ts → Runs r (step s') ts (.inl s'') us → us.length < ts.length → Laps r step s ss s'' us

theorem Laps.repeatAtMost {step : σ → Reader (σ ⊕ β)} {s s' : σ} (h : Laps r step s ss s' ts)
    (hd : ∀ n, ts.length < n → Runs r (repeatAtMost step n s') ts b us) :
    ∀ n, ss.length < n → Runs r (Reader.repeatAtMost step n s) ss b us := by
  induction h with
  | none => exact hd
  | snoc _ hs hl ih =>
    refine ih fun n hn => ?_
    cases n with
    | zero => omega
    | succ n => exact Runs.bind hs (hd n (by omega))

theorem Runs.iterate {step : σ → Reader (σ ⊕ β)} {s s' : σ} (h : Laps r step s ss s' ts)
    (hd : Runs r (step s') ts (.inr b) us) (hl : ss.length < r.limit) : Runs r (iterate step s) ss b us := by
  refine h.repeatAtMost (fun n hn => ?_) r.limit hl
  cases n with
  | zero => omega
  | succ n => exact Runs.bind hd (Runs.pure b)

/-- An invariant of the laps of a loop holds when it is left. -/
theorem Yields.iterate {Q : β → List Symbol → Prop} {step : σ → Reader (σ ⊕ β)} {s : σ}
    (I : σ → List Symbol → Prop)
    (hs : I s ss) (hstep : ∀ s ts, I s ts → Yields r (step s) ts fun out us => out.elim (I · us) (Q · us)) :
    Yields r (iterate step s) ss Q := by
  have laps : ∀ n s ts, I s ts → Yields r (repeatAtMost step n s) ts Q := by
    intro n
    induction n with
    | zero =>
      intro s ts _
      exact Yields.crash
    | succ n ih =>
      intro s ts h
      refine Yields.bind (hstep s ts h) fun out us hout => ?_
      cases out with
      | inl s' => exact ih s' us hout
      | inr b => exact Yields.pure hout
  exact laps r.limit s ss hs

/-! ## Single symbols -/

theorem Runs.peek? {f : Option Lexeme → Reader β} {s : Symbol}
    (hf : ∀ l, l.Is s → Runs r (f (some l)) (s :: ss) b ts) : Runs r (Reader.peek? >>= f) (s :: ss) b ts := by
  intro ls hs
  obtain ⟨l, ls, rfl, hl, hs'⟩ := hs.cons
  exact hf l hl _ hs

theorem Runs.peek?_end {f : Option Lexeme → Reader β}
    (hf : ∀ l : Lexeme, l.token.kind = .eof → Runs r (f (some l)) [] b ts) : Runs r (Reader.peek? >>= f) [] b ts := by
  intro ls hs
  obtain ⟨l, ls, rfl, hl⟩ := hs.nil
  exact hf l hl _ hs

theorem runs_advance (s : Symbol) : Runs r advance (s :: ss) () ss := by
  intro ls hs
  obtain ⟨l, ls, rfl, -, hs'⟩ := hs.cons
  exact ⟨ls, rfl, hs'⟩

theorem runs_text {l : Lexeme} {t : String} (h : l.text? = some t) : Runs r (text l) ss t ss := by
  rw [text, h]
  exact Runs.pure t

theorem runs_mark? (ss : List Symbol) : Runs r mark? ss (ss.head?.bind Symbol.mark?) ss := by
  cases ss with
  | nil =>
    refine Runs.peek?_end fun l hl => ?_
    simp only [hl, reduceCtorEq, if_false]
    exact Runs.pure _
  | cons s ss =>
    refine Runs.peek? fun l hl => ?_
    cases s with
    | mark m =>
      simp only [hl.1, if_true]
      exact (runs_text hl.2).bind (Runs.pure _)
    | keyword w | ident n =>
      simp only [hl.1, reduceCtorEq, if_false]
      exact Runs.pure _
    | number v | str t =>
      simp only [show l.token.kind = _ from hl, reduceCtorEq, if_false]
      exact Runs.pure _

theorem runs_atMark (m : String) (ss : List Symbol) : Runs r (atMark m) ss (decide (ss.head? = some (.mark m))) ss := by
  have same : (ss.head?.bind Symbol.mark? == some m) = decide (ss.head? = some (.mark m)) := by
    rcases ss with _ | ⟨s, ss⟩
    · rfl
    · rw [Bool.eq_iff_iff]
      cases s <;> simp [Symbol.mark?]
  rw [← same]
  exact (runs_mark? ss).bind (Runs.pure _)

theorem runs_atKeyword (w : String) (ss : List Symbol) :
    Runs r (atKeyword w) ss (decide (ss.head? = some (.keyword w))) ss := by
  cases ss with
  | nil =>
    refine Runs.peek?_end fun l hl => ?_
    simp only [hl, reduceCtorEq, if_false]
    exact Runs.pure _
  | cons s ss =>
    refine Runs.peek? fun l hl => ?_
    cases s with
    | keyword v =>
      simp only [hl.1, if_true]
      refine (runs_text hl.2).bind ?_
      have same : (v == w) = decide ((Symbol.keyword v :: ss).head? = some (.keyword w)) := by
        rw [Bool.eq_iff_iff]
        simp
      rw [same]
      exact Runs.pure _
    | mark m | ident n =>
      simp only [hl.1, reduceCtorEq, if_false]
      exact Runs.pure _
    | number v | str t =>
      simp only [show l.token.kind = _ from hl, reduceCtorEq, if_false]
      exact Runs.pure _

theorem runs_atEnd (ss : List Symbol) : Runs r atEnd ss ss.isEmpty ss := by
  cases ss with
  | nil =>
    refine Runs.peek?_end fun l hl => ?_
    simp only [hl]
    exact Runs.pure _
  | cons s ss =>
    refine Runs.peek? fun l hl => ?_
    cases s with
    | mark m | keyword w | ident n =>
      simp only [hl.1]
      exact Runs.pure _
    | number v | str t =>
      simp only [show l.token.kind = _ from hl]
      exact Runs.pure _

/-- Taking a symbol that is there. -/
theorem runs_acceptMark (m : String) (ss : List Symbol) : Runs r (acceptMark m) (.mark m :: ss) true ss := by
  refine (runs_atMark m _).bind ?_
  rw [decide_eq_true List.head?_cons]
  exact (runs_advance _).bind (Runs.pure true)

theorem runs_acceptMark_false {m : String} (h : ss.head? ≠ some (.mark m)) : Runs r (acceptMark m) ss false ss := by
  refine (runs_atMark m ss).bind ?_
  rw [decide_eq_false h]
  exact Runs.pure false

theorem runs_acceptKeyword (w : String) (ss : List Symbol) : Runs r (acceptKeyword w) (.keyword w :: ss) true ss := by
  refine (runs_atKeyword w _).bind ?_
  rw [decide_eq_true List.head?_cons]
  exact (runs_advance _).bind (Runs.pure true)

theorem runs_acceptKeyword_false {w : String} (h : ss.head? ≠ some (.keyword w)) :
    Runs r (acceptKeyword w) ss false ss := by
  refine (runs_atKeyword w ss).bind ?_
  rw [decide_eq_false h]
  exact Runs.pure false

theorem runs_expectMark (m : String) (ss : List Symbol) : Runs r (expectMark m) (.mark m :: ss) () ss :=
  (runs_acceptMark m ss).bind (Runs.pure ())

theorem runs_identifier (n : String) (ss : List Symbol) : Runs r identifier (.ident n :: ss) n ss := by
  refine Runs.peek? fun l hl => ?_
  simp only [hl.1, if_true]
  exact (runs_text hl.2).bind ((runs_advance _).bind (Runs.pure n))

theorem yields_acceptMark (m : String) (ss : List Symbol) :
    Yields r (acceptMark m) ss fun b ts => if b then ss = .mark m :: ts else ts = ss := by
  by_cases h : ss.head? = some (.mark m)
  · obtain ⟨ts, rfl⟩ := List.head?_eq_some_iff.1 h
    exact Yields.of_runs (runs_acceptMark m ts) rfl
  · exact Yields.of_runs (runs_acceptMark_false h) rfl

theorem yields_acceptKeyword (w : String) (ss : List Symbol) :
    Yields r (acceptKeyword w) ss fun b ts => if b then ss = .keyword w :: ts else ts = ss := by
  by_cases h : ss.head? = some (.keyword w)
  · obtain ⟨ts, rfl⟩ := List.head?_eq_some_iff.1 h
    exact Yields.of_runs (runs_acceptKeyword w ts) rfl
  · exact Yields.of_runs (runs_acceptKeyword_false h) rfl

theorem yields_expectMark (m : String) (ss : List Symbol) :
    Yields r (expectMark m) ss fun _ ts => ss = .mark m :: ts := by
  refine Yields.bind (yields_acceptMark m ss) fun b ts hb => ?_
  cases b with
  | true => exact Yields.pure hb
  | false => exact Yields.failHere _

theorem Yields.peek? {Q : β → List Symbol → Prop} {f : Option Lexeme → Reader β} {s : Symbol}
    (hf : ∀ l, l.Is s → Yields r (f (some l)) (s :: ss) Q) : Yields r (Reader.peek? >>= f) (s :: ss) Q := by
  intro ls b ls' hs he
  obtain ⟨l, ls, rfl, hl, hs'⟩ := hs.cons
  exact hf l hl _ b ls' hs he

theorem Yields.peek?_end {Q : β → List Symbol → Prop} {f : Option Lexeme → Reader β}
    (hf : ∀ l : Lexeme, l.token.kind = .eof → Yields r (f (some l)) [] Q) : Yields r (Reader.peek? >>= f) [] Q := by
  intro ls b ls' hs he
  obtain ⟨l, ls, rfl, hl⟩ := hs.nil
  exact hf l hl _ b ls' hs he

theorem yields_identifier (ss : List Symbol) : Yields r identifier ss fun n ts => ss = .ident n :: ts := by
  cases ss with
  | nil =>
    refine Yields.peek?_end fun l hl => ?_
    simp only [hl, reduceCtorEq, if_false]
    exact Yields.failHere _
  | cons s ss =>
    cases s with
    | ident n => exact Yields.of_runs (runs_identifier n ss) rfl
    | mark t | keyword t =>
      refine Yields.peek? fun l hl => ?_
      simp only [hl.1, reduceCtorEq, if_false]
      exact Yields.failHere _
    | number v | str t =>
      refine Yields.peek? fun l hl => ?_
      simp only [show l.token.kind = _ from hl, reduceCtorEq, if_false]
      exact Yields.failHere _

open Grammar in
theorem runs_literal {s : Symbol} {e : Expr} (h : IsPrimary [s] e) (ss : List Symbol) :
    Runs r literal (s :: ss) e ss := by
  refine Runs.peek? fun l hl => ?_
  generalize hws : [s] = ws at h
  cases h with
  | ident n =>
    cases hws
    simp only [hl.1]
    exact (runs_identifier n ss).bind (Runs.pure _)
  | number v =>
    cases hws
    simp only [show l.token.kind = _ from hl]
    exact (runs_advance _).bind (Runs.pure _)
  | str t =>
    cases hws
    simp only [show l.token.kind = _ from hl]
    exact (runs_advance _).bind (Runs.pure _)
  | parens _ =>
    rw [parens] at hws
    simp at hws

open Grammar in
theorem yields_literal (ss : List Symbol) : Yields r literal ss (Found IsPrimary ss) := by
  cases ss with
  | nil =>
    refine Yields.peek?_end fun l hl => ?_
    simp only [hl]
    exact Yields.failHere _
  | cons s ss =>
    cases s with
    | ident n => exact Yields.of_runs (runs_literal (.ident n) ss) ⟨_, rfl, .ident n⟩
    | number v => exact Yields.of_runs (runs_literal (.number v) ss) ⟨_, rfl, .number v⟩
    | str t => exact Yields.of_runs (runs_literal (.str t) ss) ⟨_, rfl, .str t⟩
    | mark t | keyword t =>
      refine Yields.peek? fun l hl => ?_
      simp only [hl.1]
      exact Yields.failHere _

end Reader

end DotCom
