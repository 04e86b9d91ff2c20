/-
  DotCom.Proofs.Parsing.Expressions — reading types and expressions finds exactly the phrases of the
  grammar.

  - `yields_expr`: what is read is a phrase, with the tree that is returned.
  - `runs_expr`: every phrase is read, if what stands behind it cannot be a part of it.

  The readers of one level of nesting take the reader of the next as an argument, so each lemma
  here takes what it needs to know about that reader as a hypothesis.
-/

import DotCom.Proofs.Parsing.Readers

namespace DotCom.Reader

open Grammar

variable {α β : Type} {r : Reading} {ss : List Symbol}

/-! ## Types -/

theorem typeSymbols_pointer {ty ty' : Ty} (h : ty.pointer? = some ty') :
    typeSymbols ty' = typeSymbols ty ++ [.mark "*"] := by
  unfold Ty.pointer? at h
  split at h
  · rename_i hd
    cases h
    have next : (ty.depth + 1).toNat = ty.depth.toNat + 1 := by
      rw [UInt32.toNat_add]
      exact Nat.mod_eq_of_lt hd
    simp only [typeSymbols, next, List.replicate_succ', List.cons_append]
  · cases h

theorem yields_baseType (ss : List Symbol) : Yields r baseType ss fun ty ts => ss = typeSymbols ty ++ ts := by
  refine Yields.bind (yields_acceptKeyword "int" ss) fun b ts hb => ?_
  cases b with
  | true => exact Yields.pure hb
  | false =>
    cases hb
    refine Yields.bind (yields_acceptKeyword "char" ss) fun b ts hb => ?_
    cases b with
    | true => exact Yields.pure hb
    | false => exact Yields.failHere _

theorem yields_type (ss : List Symbol) : Yields r type ss fun ty ts => ss = typeSymbols ty ++ ts := by
  refine Yields.bind (yields_baseType ss) fun base ts hbase => ?_
  refine Yields.iterate (fun ty us => ss = typeSymbols ty ++ us) hbase fun ty us h => ?_
  refine Yields.bind (yields_acceptMark "*" us) fun b vs hb => ?_
  cases b with
  | true =>
    cases hb
    cases hp : ty.pointer? with
    | none => exact Yields.crash
    | some ty' =>
      refine Yields.pure ?_
      show ss = typeSymbols ty' ++ vs
      rw [h, typeSymbols_pointer hp, List.append_assoc]
      rfl
  | false =>
    cases hb
    exact Yields.pure h

theorem runs_baseType (base : Base) (ss : List Symbol) :
    Runs r baseType (.keyword (Ty.baseName base) :: ss) ⟨base, 0⟩ ss := by
  cases base with
  | int => exact (runs_acceptKeyword "int" ss).bind (Runs.pure _)
  | char =>
    refine (runs_acceptKeyword_false ?_).bind ((runs_acceptKeyword "char" ss).bind (Runs.pure _))
    simp [Ty.baseName]

theorem pointer?_ofNat {n : Nat} (base : Base) (h : n + 1 < UInt32.size) :
    (⟨base, UInt32.ofNat n⟩ : Ty).pointer? = some ⟨base, UInt32.ofNat (n + 1)⟩ := by
  have same : (UInt32.ofNat n).toNat = n := UInt32.toNat_ofNat_of_lt' (by omega)
  rw [Ty.pointer?, if_pos (by simpa only [same] using h), UInt32.ofNat_add]
  rfl

theorem laps_star (base : Base) (n : Nat) (h : n < UInt32.size) (ss : List Symbol) :
    Laps r star ⟨base, 0⟩ (List.replicate n (.mark "*") ++ ss) ⟨base, UInt32.ofNat n⟩ ss := by
  induction n generalizing ss with
  | zero => exact Laps.none
  | succ n ih =>
    have more := ih (by omega) (.mark "*" :: ss)
    rw [List.replicate_succ', List.append_assoc]
    refine more.snoc ((runs_acceptMark "*" ss).bind ?_) (by simp)
    simp only [pointer?_ofNat base h]
    exact Runs.pure _

theorem runs_type (ty : Ty) (h : ss.head? ≠ some (.mark "*")) (hl : (typeSymbols ty ++ ss).length < r.limit) :
    Runs r type (typeSymbols ty ++ ss) ty ss := by
  have stars := laps_star (r := r) ty.base ty.depth.toNat ty.depth.toNat_lt ss
  rw [UInt32.ofNat_toNat] at stars
  refine (runs_baseType ty.base _).bind (Runs.iterate stars ?_ ?_)
  · exact (runs_acceptMark_false h).bind (Runs.pure _)
  · exact Nat.lt_of_succ_lt hl

/-! ## Lists -/

/-- A list in parentheses behind the opening one. -/
def Closed (phrase : List Symbol → α → Prop) (ws : List Symbol) (xs : List α) : Prop :=
  ∃ vs, ws = vs ++ [.mark ")"] ∧ Listed phrase vs xs

theorem yields_listed {phrase : List Symbol → α → Prop} {item : Reader α}
    (hi : ∀ ss, Yields r item ss (Found phrase ss)) (ss : List Symbol) :
    Yields r (listed item) ss (Found (Closed phrase) ss) := by
  refine Yields.bind (yields_acceptMark ")" ss) fun b ts hb => ?_
  cases b with
  | true => exact Yields.pure ⟨[.mark ")"], hb, [], rfl, .none⟩
  | false =>
    cases hb
    -- Between two laps a comma has just been taken, unless nothing has been read yet.
    let I (items : Array α) (ts : List Symbol) : Prop :=
      (items = #[] ∧ ts = ss) ∨ ∃ ws, ss = ws ++ .mark "," :: ts ∧ Separated [.mark ","] phrase ws items.toList
    have loop : Yields r (iterate (nextItem item) #[]) ss
        fun items ts => ∃ ws, ss = ws ++ .mark ")" :: ts ∧ Separated [.mark ","] phrase ws items.toList := by
      refine Yields.iterate I (.inl ⟨rfl, rfl⟩) fun items ts h => ?_
      refine Yields.bind (hi ts) fun x us hx => ?_
      obtain ⟨vs, rfl, hx⟩ := hx
      have read : ∃ ws, ss = ws ++ us ∧ Separated [.mark ","] phrase ws (items.push x).toList := by
        rcases h with ⟨rfl, rfl⟩ | ⟨ws, rfl, hw⟩
        · exact ⟨vs, rfl, .one hx⟩
        · exact ⟨ws ++ [.mark ","] ++ vs, by simp, by rw [Array.toList_push]; exact .more hw hx⟩
      obtain ⟨ws, rfl, hw⟩ := read
      refine Yields.bind (yields_acceptMark ")" us) fun b us' hb => ?_
      cases b with
      | true =>
        cases hb
        exact Yields.pure ⟨ws, rfl, hw⟩
      | false =>
        cases hb
        refine Yields.bind (yields_expectMark "," _) fun _ us' hc => ?_
        cases hc
        exact Yields.pure (.inr ⟨ws, rfl, hw⟩)
    refine Yields.bind loop fun items ts h => ?_
    obtain ⟨ws, rfl, hw⟩ := h
    exact Yields.pure ⟨ws ++ [.mark ")"], by simp, ws, rfl, .some hw⟩

/-- A reader reads every phrase of at most `n` symbols that a comma or a closing parenthesis follows. -/
def ReadsItems (r : Reading) (phrase : List Symbol → α → Prop) (item : Reader α) (n : Nat) : Prop :=
  ∀ vs x rest, phrase vs x → vs.length ≤ n → rest.head? = some (.mark ",") ∨ rest.head? = some (.mark ")") →
    (vs ++ rest).length < r.limit → Runs r item (vs ++ rest) x rest

section

variable {phrase : List Symbol → α → Prop} {item : Reader α} {n : Nat} {ws : List Symbol} {xs : List α}

theorem runs_nextItem_comma {x : α} {rest : List Symbol} (items : Array α)
    (h : Runs r item ss x (.mark "," :: rest)) : Runs r (nextItem item items) ss (.inl (items.push x)) rest :=
  h.bind ((runs_acceptMark_false (by simp)).bind ((runs_expectMark "," rest).bind (Runs.pure _)))

theorem runs_nextItem_close {x : α} {rest : List Symbol} (items : Array α)
    (h : Runs r item ss x (.mark ")" :: rest)) : Runs r (nextItem item items) ss (.inr (items.push x)) rest :=
  h.bind ((runs_acceptMark ")" rest).bind (Runs.pure _))

theorem laps_nextItem (hi : ReadsItems r phrase item n) (h : Separated [.mark ","] phrase ws xs) (hn : ws.length ≤ n)
    (rest : List Symbol) (hl : (ws ++ .mark "," :: rest).length < r.limit) :
    Laps r (nextItem item) #[] (ws ++ .mark "," :: rest) xs.toArray rest := by
  induction h generalizing rest with
  | @one vs x hx =>
    have read := hi vs x (.mark "," :: rest) hx hn (.inl rfl) hl
    exact Laps.none.snoc (runs_nextItem_comma #[] read) (by simp; omega)
  | @more ws vs xs x _ hx ih =>
    simp only [List.append_assoc, List.cons_append, List.nil_append, List.length_append, List.length_cons] at hl hn ih ⊢
    have read := hi vs x (.mark "," :: rest) hx (by omega) (.inl rfl) (by simp; omega)
    have before := ih (by omega) (vs ++ .mark "," :: rest) (by simp; omega)
    have step := before.snoc (runs_nextItem_comma xs.toArray read) (by simp; omega)
    rwa [List.push_toArray] at step

theorem runs_separated (hi : ReadsItems r phrase item n) (h : Separated [.mark ","] phrase ws xs) (hn : ws.length ≤ n)
    (rest : List Symbol) (hl : (ws ++ .mark ")" :: rest).length < r.limit) :
    Runs r (iterate (nextItem item) #[]) (ws ++ .mark ")" :: rest) xs.toArray rest := by
  cases h with
  | @one vs x hx =>
    have read := hi ws x (.mark ")" :: rest) hx hn (.inr rfl) hl
    exact Runs.iterate Laps.none (runs_nextItem_close #[] read) hl
  | @more ws vs xs x h hx =>
    simp only [List.append_assoc, List.cons_append, List.nil_append, List.length_append, List.length_cons] at hl hn ⊢
    have before := laps_nextItem hi h (by omega) (vs ++ .mark ")" :: rest) (by simp; omega)
    have read := hi vs x (.mark ")" :: rest) hx (by omega) (.inr rfl) (by simp; omega)
    have all := Runs.iterate before (runs_nextItem_close xs.toArray read) (by simp; omega)
    rwa [List.push_toArray] at all

theorem runs_listed (hi : ReadsItems r phrase item n) (hh : ∀ vs x, phrase vs x → Starts (· ≠ .mark ")") vs)
    (h : Listed phrase ws xs) (hn : ws.length ≤ n) (rest : List Symbol)
    (hl : (ws ++ .mark ")" :: rest).length < r.limit) :
    Runs r (listed item) (ws ++ .mark ")" :: rest) xs rest := by
  cases h with
  | none => exact (runs_acceptMark ")" rest).bind (Runs.pure _)
  | some h =>
    obtain ⟨s, ws', rfl, hs⟩ := h.starts hh
    refine (runs_acceptMark_false (by simpa using hs)).bind ?_
    exact (runs_separated hi h hn rest hl).bind (Runs.pure _)

end

/-! ## What is read is a phrase -/

section

variable {expr : Reader Expr} (he : ∀ ss, Yields r expr ss (Found IsExpr ss))

include he

theorem yields_primary (ss : List Symbol) : Yields r (primary expr) ss (Found IsPrimary ss) := by
  refine Yields.bind (yields_acceptMark "(" ss) fun b ts hb => ?_
  cases b with
  | true =>
    refine Yields.bind (he ts) fun e us hus => ?_
    obtain ⟨ws, rfl, hw⟩ := hus
    refine Yields.bind (yields_expectMark ")" us) fun _ vs hvs => ?_
    cases hvs
    cases hb
    exact Yields.pure ⟨parens ws, by simp [parens], .parens hw⟩
  | false =>
    cases hb
    exact yields_literal ss

theorem yields_suffixed {node : Expr} {ts : List Symbol} (h : Found IsPostfix ss node ts) :
    Yields r (suffixed expr node) ts fun out us => out.elim (Found IsPostfix ss · us) (Found IsPostfix ss · us) := by
  obtain ⟨ws, rfl, hw⟩ := h
  refine Yields.loc fun here => Yields.bind (yields_acceptMark "(" ts) fun b us hb => ?_
  cases b with
  | true =>
    cases hb
    cases node with
    | ident callee =>
      refine Yields.bind (yields_listed he us) fun args us' hargs => ?_
      obtain ⟨_, rfl, vs, rfl, hvs⟩ := hargs
      exact Yields.pure ⟨ws ++ parens vs, by simp [parens], .call hw hvs⟩
    | int _ | str _ | call _ _ | assign _ _ | chain _ _ => exact Yields.failAt here _
  | false =>
    cases hb
    refine Yields.bind (yields_acceptMark "[" ts) fun b us hb => ?_
    cases b with
    | true =>
      cases hb
      refine Yields.bind (he us) fun index us' hindex => ?_
      obtain ⟨vs, rfl, hvs⟩ := hindex
      refine Yields.bind (yields_expectMark "]" us') fun _ us'' hclose => ?_
      cases hclose
      exact Yields.pure ⟨ws ++ brackets vs, by simp [brackets], .subscript hw hvs⟩
    | false =>
      cases hb
      exact Yields.pure ⟨ws, rfl, hw⟩

theorem yields_postfixed (ss : List Symbol) : Yields r (postfixed expr) ss (Found IsPostfix ss) := by
  refine Yields.bind (yields_primary he ss) fun first ts hfirst => ?_
  obtain ⟨ws, hws, hw⟩ := hfirst
  exact Yields.iterate (Found IsPostfix ss) ⟨ws, hws, .primary hw⟩ fun _ _ h => yields_suffixed he h

end

/-- The operators of a level, without their marks. -/
def operatorsOf (level : Level) : List BinaryOp := level.map Prod.snd

/-- Each operator of a level has the symbol that the level writes for it. -/
def Named (level : Level) : Prop := ∀ x ∈ level, x.2.symbol = x.1

theorem mem_of_find? {level : Level} (hn : Named level) {m : String} {op : BinaryOp}
    (h : (operatorsOf level).find? (·.symbol == m) = some op) : (m, op) ∈ level := by
  obtain ⟨x, hx, rfl⟩ := List.mem_map.1 (List.mem_of_find?_eq_some h)
  have symbol := List.find?_some h
  rw [beq_iff_eq, hn x hx] at symbol
  rw [← symbol]
  exact hx

theorem gather_eq {first : Expr} {tail : List (BinaryOp × Expr)} (h : tail ≠ []) :
    gather first tail = .chain (first :: tail.map Prod.snd) (tail.map Prod.fst) := by
  cases tail with
  | nil => exact absurd rfl h
  | cons _ _ => rfl

theorem yields_operation {operand : Reader Expr} {level : Level} {tighter : List Level}
    (ho : ∀ ss, Yields r operand ss (Found (IsBinary tighter) ss)) (hn : Named level) {tail : Array (BinaryOp × Expr)}
    {ts : List Symbol} (h : Found (IsTail level tighter) ss tail.toList ts) :
    Yields r (operation operand (operatorsOf level) tail) ts fun out us =>
      out.elim (fun tail => Found (IsTail level tighter) ss tail.toList us)
        (fun tail => Found (IsTail level tighter) ss tail.toList us) := by
  obtain ⟨ws, rfl, hw⟩ := h
  refine Yields.bind (Yields.of_runs (P := fun m us => m = ts.head?.bind Symbol.mark? ∧
    us = ts) (runs_mark? ts) ⟨rfl, rfl⟩)
    fun m us hm => ?_
  obtain ⟨rfl, rfl⟩ := hm
  cases hf : (us.head?.bind Symbol.mark?).bind fun m => (operatorsOf level).find? (·.symbol == m) with
  | none => exact Yields.pure ⟨ws, rfl, hw⟩
  | some op =>
    obtain ⟨m, hm, hop⟩ := Option.bind_eq_some_iff.1 hf
    obtain ⟨rest, rfl⟩ := eq_mark_of_head? hm
    refine Yields.bind (Yields.of_runs (P := fun _ us => us = rest) (runs_advance _) rfl) fun _ us e => ?_
    cases e
    refine Yields.bind (ho rest) fun e us he => ?_
    obtain ⟨vs, rfl, hv⟩ := he
    refine Yields.pure ⟨ws ++ .mark m :: vs, by simp, ?_⟩
    rw [Array.toList_push]
    exact .snoc hw (mem_of_find? hn hop) hv

theorem yields_joined {operand : Reader Expr} (ho : ∀ ss, Yields r operand ss (Found IsPostfix ss))
    (levels : List Level) (hn : ∀ level ∈ levels, Named level) (ss : List Symbol) :
    Yields r (joined operand (levels.map operatorsOf)) ss (Found (IsBinary levels) ss) := by
  induction levels generalizing ss with
  | nil =>
    refine (ho ss).mono fun e ts h => ?_
    obtain ⟨ws, rfl, hw⟩ := h
    exact ⟨ws, rfl, .postfixed hw⟩
  | cons level tighter ih =>
    have inner := ih fun l hl => hn l (List.mem_cons_of_mem _ hl)
    refine Yields.bind (inner ss) fun first ts hfirst => ?_
    obtain ⟨ws, rfl, hw⟩ := hfirst
    refine Yields.bind (Yields.iterate (fun tail us => Found (IsTail level tighter) ts tail.toList us) ⟨[], rfl, .nil⟩
      fun tail us h => yields_operation inner (hn level List.mem_cons_self) h) fun tail us htail => ?_
    obtain ⟨vs, rfl, hv⟩ := htail
    refine Yields.pure ⟨ws ++ vs, by simp, ?_⟩
    by_cases ht : tail.toList = []
    · rw [ht] at hv ⊢
      rw [hv.nil_eq, List.append_nil]
      exact .single hw
    · rw [gather_eq ht]
      exact .chain hw hv ht

theorem named_levels : ∀ level ∈ Grammar.levels, Named level := by
  unfold Named
  decide

theorem yields_assignment {side : Reader Expr} (hs : ∀ ss, Yields r side ss (Found (IsBinary levels) ss))
    (ss : List Symbol) :
    Yields r (assignment side) ss (Found IsExpr ss) := by
  refine Yields.loc fun start => Yields.bind (hs ss) fun left ts hleft => ?_
  obtain ⟨ws, rfl, hw⟩ := hleft
  refine Yields.bind (yields_acceptMark "=" ts) fun b us hb => ?_
  cases b with
  | false =>
    cases hb
    exact Yields.pure ⟨ws, rfl, .plain hw⟩
  | true =>
    cases hb
    cases left with
    | ident target =>
      refine Yields.bind (hs us) fun value us' hvalue => ?_
      obtain ⟨vs, rfl, hv⟩ := hvalue
      refine Yields.bind (Yields.of_runs (P := fun _ ts => ts = us') (runs_atMark "=" us') rfl) fun b _ e => ?_
      cases e
      cases b with
      | true => exact Yields.bind (P := fun _ _ => False) (Yields.failHere _) fun _ _ h => h.elim
      | false => exact Yields.pure ⟨ws ++ .mark "=" :: vs, by simp, .assign hw hv⟩
    | int _ | str _ | call _ _ | assign _ _ | chain _ _ => exact Yields.failAt start _

theorem yields_nestedExpr (n : Nat) (ss : List Symbol) : Yields r (nestedExpr n) ss (Found IsExpr ss) := by
  induction n generalizing ss with
  | zero => exact Yields.crash
  | succ n ih => exact yields_assignment (yields_joined (yields_postfixed ih) Grammar.levels named_levels) ss

theorem yields_expr (ss : List Symbol) : Yields r expr ss (Found IsExpr ss) := yields_nestedExpr r.limit ss

/-! ## Every phrase is read -/

/-- The marks that would go on with a phrase of some levels. -/
def continuing (levels : List Level) : List String := "(" :: "[" :: levels.flatMap (·.map Prod.fst)

/-- The marks that would go on with an expression. -/
def exprMarks : List String := "=" :: continuing levels

/-- A reader reads every expression of at most `n` symbols that ends where it has to. -/
def ReadsExpr (r : Reading) (expr : Reader Expr) (n : Nat) : Prop :=
  ∀ ws e rest, IsExpr ws e → ws.length ≤ n → Clear exprMarks rest → (ws ++ rest).length < r.limit →
    Runs r expr (ws ++ rest) e rest

theorem clear_mark {marks : List String} {m : String} (h : m ∉ marks) (ss : List Symbol) :
    Clear marks (.mark m :: ss) := by
  intro k hk e
  cases e
  exact h hk

section

variable {expr : Reader Expr} {n : Nat} (he : ReadsExpr r expr n)

include he

theorem ReadsExpr.items : ReadsItems r IsExpr expr n := by
  intro vs e rest hv hn hr hl
  refine he vs e rest hv hn ?_ hl
  rcases hr with hr | hr
  · obtain ⟨ts, rfl⟩ := List.head?_eq_some_iff.1 hr
    exact clear_mark (by decide) ts
  · obtain ⟨ts, rfl⟩ := List.head?_eq_some_iff.1 hr
    exact clear_mark (by decide) ts

theorem runs_primary {ws : List Symbol} {e : Expr} (h : IsPrimary ws e) (hn : ws.length ≤ n + 2) (rest : List Symbol)
    (hl : (ws ++ rest).length < r.limit) : Runs r (primary expr) (ws ++ rest) e rest := by
  cases h with
  | @parens ws _ h =>
    simp only [parens, List.cons_append, List.append_assoc, List.length_cons, List.length_append,
      List.nil_append] at hn hl ⊢
    refine (runs_acceptMark "(" _).bind (Runs.bind ?_ ((runs_expectMark ")" rest).bind (Runs.pure e)))
    exact he ws e _ h (by simpa using hn) (clear_mark (by decide) rest) (by simp; omega)
  | ident name => exact (runs_acceptMark_false (by simp)).bind (runs_literal (.ident name) rest)
  | number v => exact (runs_acceptMark_false (by simp)).bind (runs_literal (.number v) rest)
  | str t => exact (runs_acceptMark_false (by simp)).bind (runs_literal (.str t) rest)

theorem runs_call {vs : List Symbol} {args : List Expr} (callee : String) (h : Listed IsExpr vs args)
    (hn : vs.length ≤ n) (rest : List Symbol) (hl : (parens vs ++ rest).length < r.limit) :
    Runs r (suffixed expr (.ident callee)) (parens vs ++ rest) (.inl (.call callee args)) rest := by
  have closes : ∀ vs e, IsExpr vs e → Starts (· ≠ .mark ")") vs := fun vs e h => by
    obtain ⟨s, ws, rfl, hs⟩ := h.starts
    refine ⟨s, ws, rfl, ?_⟩
    rintro rfl
    exact absurd (show ")" = "(" from hs) (by decide)
  simp only [parens, List.cons_append, List.append_assoc, List.length_cons, List.nil_append] at hl ⊢
  refine Runs.loc fun here => (runs_acceptMark "(" _).bind (Runs.bind ?_ (Runs.pure _))
  exact runs_listed he.items closes h hn rest (by omega)

theorem runs_subscript {vs : List Symbol} {index : Expr} (node : Expr) (h : IsExpr vs index) (hn : vs.length ≤ n)
    (rest : List Symbol) (hl : (brackets vs ++ rest).length < r.limit) :
    Runs r (suffixed expr node) (brackets vs ++ rest) (.inl (.chain [node, index] [.subscript])) rest := by
  simp only [brackets, List.cons_append, List.append_assoc, List.length_cons, List.nil_append] at hl ⊢
  have inside := he vs index _ h hn (clear_mark (by decide) rest) (Nat.lt_of_succ_lt hl)
  refine Runs.loc fun here => (runs_acceptMark_false (by simp)).bind ((runs_acceptMark "[" _).bind ?_)
  exact inside.bind ((runs_expectMark "]" rest).bind (Runs.pure _))

/-- A postfix phrase is a primary one and laps behind it. -/
theorem laps_suffixed {ws : List Symbol} {e : Expr} (h : IsPostfix ws e) (hn : ws.length ≤ n + 2) (rest : List Symbol)
    (hl : (ws ++ rest).length < r.limit) :
    ∃ first ts, Runs r (primary expr) (ws ++ rest) first ts ∧ ts.length ≤ (ws ++ rest).length ∧
      Laps r (suffixed expr) first ts e rest := by
  induction hk : ws.length using Nat.strongRecOn generalizing ws e rest with
  | ind k ih =>
    subst hk
    cases h with
    | primary h => exact ⟨e, rest, runs_primary he h hn rest hl, by simp, Laps.none⟩
    | @call ws vs callee args h hv =>
      have shorter : ws.length < (ws ++ parens vs).length := by simp [parens]
      have inside : vs.length ≤ n := by simp [parens] at hn; omega
      rw [List.append_assoc] at hl ⊢
      obtain ⟨first, ts, hp, hts, laps⟩ := ih ws.length shorter h (by omega) (parens vs ++ rest) hl rfl
      have lap := runs_call he callee hv inside rest (by simp at hl ⊢; omega)
      exact ⟨first, ts, hp, hts, laps.snoc lap (by simp [parens]; omega)⟩
    | @subscript ws vs node index h hv =>
      have shorter : ws.length < (ws ++ brackets vs).length := by simp [brackets]
      have inside : vs.length ≤ n := by simp [brackets] at hn; omega
      rw [List.append_assoc] at hl ⊢
      obtain ⟨first, ts, hp, hts, laps⟩ := ih ws.length shorter h (by omega) (brackets vs ++ rest) hl rfl
      have lap := runs_subscript he node hv inside rest (by simp at hl ⊢; omega)
      exact ⟨first, ts, hp, hts, laps.snoc lap (by simp [brackets]; omega)⟩

theorem runs_postfixed {ws : List Symbol} {e : Expr} (h : IsPostfix ws e) (hn : ws.length ≤ n + 2) (rest : List Symbol)
    (hr : Clear (continuing []) rest) (hl : (ws ++ rest).length < r.limit) :
    Runs r (postfixed expr) (ws ++ rest) e rest := by
  obtain ⟨first, ts, hp, hts, laps⟩ := laps_suffixed he h hn rest hl
  refine hp.bind (Runs.iterate laps ?_ (by omega))
  have noCall := hr "(" (by decide)
  have noIndex := hr "[" (by decide)
  exact Runs.loc fun here => (runs_acceptMark_false noCall).bind ((runs_acceptMark_false noIndex).bind (Runs.pure _))

end

/-- A mark tells its level and its operator. -/
def Distinct : List Level → Prop
  | [] => True
  | level :: tighter =>
    (∀ x ∈ level, x.1 ∉ continuing tighter ∧ (operatorsOf level).find? (·.symbol == x.1) = some x.2) ∧ Distinct tighter

theorem clear_tighter {level : Level} {tighter : List Level} {rest : List Symbol}
    (h : Clear (continuing (level :: tighter)) rest) :
    Clear (continuing tighter) rest := by
  intro m hm
  refine h m ?_
  simp only [continuing, List.mem_cons, List.flatMap_cons, List.mem_append] at hm ⊢
  rcases hm with hm | hm | hm
  · exact .inl hm
  · exact .inr (.inl hm)
  · exact .inr (.inr (.inr hm))

/-- A level ends where none of its marks stands. -/
theorem runs_operation_done {level : Level} {tighter : List Level} (hn : Named level) (tail : Array (BinaryOp × Expr))
    {rest : List Symbol} (h : Clear (continuing (level :: tighter)) rest) (operand : Reader Expr) :
    Runs r (operation operand (operatorsOf level) tail) rest (.inr tail) rest := by
  have none : (rest.head?.bind Symbol.mark?).bind (fun m => (operatorsOf level).find? (·.symbol == m)) = none := by
    rw [Option.bind_eq_none_iff]
    intro m hm
    obtain ⟨ts, rfl⟩ := eq_mark_of_head? hm
    cases hf : (operatorsOf level).find? (·.symbol == m) with
    | none => rfl
    | some op =>
      have mem := mem_of_find? hn hf
      refine absurd rfl (h m ?_)
      simp only [continuing, List.flatMap_cons, List.mem_cons, List.mem_append, List.mem_map]
      exact .inr (.inr (.inl ⟨_, mem, rfl⟩))
  refine (runs_mark? rest).bind ?_
  rw [none]
  exact Runs.pure _

theorem runs_operation {operand : Reader Expr} {level : Level} {m : String} {op : BinaryOp} {e : Expr}
    {ts us : List Symbol}
    (tail : Array (BinaryOp × Expr)) (hf : (operatorsOf level).find? (·.symbol == m) = some op)
    (ho : Runs r operand ts e us) :
    Runs r (operation operand (operatorsOf level) tail) (.mark m :: ts) (.inl (tail.push (op, e))) us := by
  have found : ((Symbol.mark m :: ts).head?.bind Symbol.mark?).bind
      (fun m => (operatorsOf level).find? (·.symbol == m)) = some op := hf
  refine (runs_mark? _).bind ?_
  rw [found]
  exact (runs_advance _).bind (ho.bind (Runs.pure _))

/-- A reader reads every phrase of some levels of at most `n` symbols that ends where it has to. -/
def ReadsBinary (r : Reading) (levels : List Level) (reader : Reader Expr) (n : Nat) : Prop :=
  ∀ ws e rest, IsBinary levels ws e → ws.length ≤ n → Clear (continuing levels) rest → (ws ++ rest).length < r.limit →
    Runs r reader (ws ++ rest) e rest

variable {operand : Reader Expr} {n : Nat}

mutual

theorem runs_joined (ho : ReadsBinary r [] operand n) {levels : List Level} (hd : Distinct levels)
    (hm : ∀ level ∈ levels, Named level) {ws : List Symbol} {e : Expr}
    (h : IsBinary levels ws e) (hn : ws.length ≤ n) (rest : List Symbol) (hr : Clear (continuing levels) rest)
    (hl : (ws ++ rest).length < r.limit) : Runs r (joined operand (levels.map operatorsOf)) (ws ++ rest) e rest := by
  match h with
  | .postfixed h => exact ho ws e rest (.postfixed h) hn hr hl
  | @IsBinary.single level tighter ws e h =>
    have inner : ∀ l ∈ tighter, Named l := fun l hl => hm l (List.mem_cons_of_mem _ hl)
    have first := runs_joined ho hd.2 inner h hn rest (clear_tighter hr) hl
    have done := runs_operation_done (r := r) (hm level List.mem_cons_self) #[] hr
    refine first.bind (Runs.bind (Runs.iterate Laps.none (done _) ?_) (Runs.pure _))
    rw [List.length_append] at hl
    omega
  | @IsBinary.chain level tighter ws vs first tail h ht hne =>
    have inner : ∀ l ∈ tighter, Named l := fun l hl => hm l (List.mem_cons_of_mem _ hl)
    rw [List.append_assoc] at hl ⊢
    rw [List.length_append] at hn hl
    obtain ⟨laps, clear⟩ := laps_operation ho hd hm ht (by omega) rest (clear_tighter hr) (by omega)
    have start := runs_joined ho hd.2 inner h (by omega) (vs ++ rest) clear (by rw [List.length_append]; omega)
    have done := runs_operation_done (r := r) (hm level List.mem_cons_self) tail.toArray hr
    rw [← gather_eq hne]
    exact start.bind (Runs.bind (Runs.iterate laps (done _) (by omega)) (Runs.pure _))

theorem laps_operation (ho : ReadsBinary r [] operand n) {level : Level} {tighter : List Level}
    (hd : Distinct (level :: tighter))
    (hm : ∀ l ∈ level :: tighter, Named l) {vs : List Symbol} {tail : List (BinaryOp × Expr)}
    (h : IsTail level tighter vs tail) (hn : vs.length ≤ n) (rest : List Symbol) (hr : Clear (continuing tighter) rest)
    (hl : (vs ++ rest).length < r.limit) :
    Laps r (operation (joined operand (tighter.map operatorsOf)) (operatorsOf level)) #[]
      (vs ++ rest) tail.toArray rest ∧ Clear (continuing tighter) (vs ++ rest) := by
  match h with
  | .nil => exact ⟨Laps.none, hr⟩
  | @IsTail.snoc level tighter ws vs tail m op e h hmem hb =>
    have inner : ∀ l ∈ tighter, Named l := fun l hl => hm l (List.mem_cons_of_mem _ hl)
    obtain ⟨apart, find⟩ := hd.1 _ hmem
    rw [List.append_assoc] at hl ⊢
    simp only [List.length_append, List.cons_append, List.length_cons] at hn hl
    obtain ⟨laps, clear⟩ := laps_operation ho hd hm h (by omega) (.mark m :: vs ++ rest) (clear_mark apart _)
      (by simp; omega)
    have right := runs_joined ho hd.2 inner hb (by omega) rest hr (by simp; omega)
    have lap := laps.snoc (runs_operation tail.toArray find right)
      (by simp only [List.cons_append, List.length_cons, List.length_append]; omega)
    rw [List.push_toArray] at lap
    exact ⟨lap, clear⟩

end

theorem distinct_levels : Distinct Grammar.levels := by
  simp only [Distinct, Grammar.levels]
  decide

theorem reads_assignment {side : Reader Expr} (hs : ReadsBinary r levels side n) : ReadsExpr r (assignment side) n := by
  intro ws e rest h hn hr hl
  have clear : Clear (continuing levels) rest := fun m hm => hr m (List.mem_cons_of_mem _ hm)
  have stop : rest.head? ≠ some (.mark "=") := hr "=" List.mem_cons_self
  cases h with
  | plain h =>
    refine Runs.loc fun start => (hs ws e rest h hn clear hl).bind ?_
    exact (runs_acceptMark_false stop).bind (Runs.pure e)
  | @assign ws vs target value h hv =>
    rw [List.append_assoc] at hl ⊢
    simp only [List.length_append, List.cons_append, List.length_cons] at hn hl ⊢
    have left := hs ws _ (.mark "=" :: (vs ++ rest)) h (by omega) (clear_mark (by decide) _) (by simp; omega)
    have right := hs vs value rest hv (by omega) clear (by simp; omega)
    have last := runs_atMark (r := r) "=" rest
    rw [decide_eq_false stop] at last
    refine Runs.loc fun start => left.bind ((runs_acceptMark "=" _).bind ?_)
    exact right.bind (last.bind (Runs.pure _))

theorem reads_nestedExpr (n : Nat) : ReadsExpr r (nestedExpr n) n := by
  induction n with
  | zero =>
    intro ws e rest h hn
    obtain ⟨s, ws', rfl, -⟩ := h.starts
    simp at hn
  | succ n ih =>
    have operand : ReadsBinary r [] (postfixed (nestedExpr n)) (n + 1) := by
      rintro ws e rest ⟨h⟩ hn hr hl
      exact runs_postfixed ih h (by omega) rest hr hl
    exact reads_assignment fun ws e rest h hn hr hl => runs_joined operand distinct_levels named_levels h hn rest hr hl

/-- An expression is read wherever none of the marks behind it goes on with it. -/
theorem runs_expr {ws : List Symbol} {e : Expr} (h : IsExpr ws e) {rest : List Symbol} (hr : Clear exprMarks rest)
    (hl : (ws ++ rest).length < r.limit) : Runs r expr (ws ++ rest) e rest :=
  reads_nestedExpr r.limit ws e rest h (by rw [List.length_append] at hl; omega) hr hl

end DotCom.Reader
