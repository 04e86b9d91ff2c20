/-
  DotCom.Proofs.Parsing.Progress — reading comes to an end. Every phrase takes a token at least, so the limit
  on laps and on nesting, which is above the number of tokens, is never met. A reader that gives up does so
  with a diagnostic at a token; the one crash that is left is that of a type with 2³² stars.

  - `Reader.Left`: what is left when some tokens are taken, none of them an end.
  - `Reader.Refuses`: how reading fails on tokens whose texts and places can be shown.
  - `Reader.Takes`: a reader takes so many tokens, or refuses them.
  - `Program.refuses_of_ofTokens`: so a program that is not read off such tokens is refused.
-/

import DotCom.Proofs.Gaps

namespace DotCom

namespace Reader

variable {α β σ : Type} {r : Reading} {all ls rest : List Lexeme} {m n : Nat}

/-! ## Tokens taken and left -/

/-- `rest` is left of `ls` when `n` tokens or more are taken off it, none of them an end. -/
def Left (n : Nat) (ls rest : List Lexeme) : Prop :=
  ∃ taken, ls = taken ++ rest ∧ n ≤ taken.length ∧ ∀ l ∈ taken, l.token.kind ≠ .eof

namespace Left

theorem refl (ls : List Lexeme) : Left 0 ls ls := ⟨[], rfl, Nat.le_refl _, by simp⟩

theorem one {l : Lexeme} (h : l.token.kind ≠ .eof) (rest : List Lexeme) : Left 1 (l :: rest) rest :=
  ⟨[l], rfl, Nat.le_refl _, by simpa using h⟩

theorem trans {i j : Nat} {ls mid rest : List Lexeme} (h : Left i ls mid) (h' : Left j mid rest) :
    Left (i + j) ls rest := by
  obtain ⟨taken, rfl, hi, before⟩ := h
  obtain ⟨more, rfl, hj, behind⟩ := h'
  refine ⟨taken ++ more, by simp, by rw [List.length_append]; omega, ?_⟩
  intro l hl
  rcases List.mem_append.1 hl with hl | hl
  · exact before l hl
  · exact behind l hl

theorem mono {i j : Nat} (h : Left j ls rest) (hi : i ≤ j) : Left i ls rest := by
  obtain ⟨taken, e, hj, ends⟩ := h
  exact ⟨taken, e, Nat.le_trans hi hj, ends⟩

theorem suffix (h : Left n ls rest) : rest <:+ ls := by
  obtain ⟨taken, rfl, -, -⟩ := h
  exact List.suffix_append taken rest

theorem length (h : Left n ls rest) : rest.length + n ≤ ls.length := by
  obtain ⟨taken, rfl, hn, -⟩ := h
  rw [List.length_append]
  omega

end Left

/-! ## Refusals -/

/-- Tokens whose texts and places can be shown, and fewer of them than the limit. -/
structure Legible (r : Reading) (all : List Lexeme) : Prop where
  text : ∀ l ∈ all, ∃ t, l.text? = some t
  place : ∀ l ∈ all, ∃ e, Text.Excerpt.at? r.source l.token.loc = some e
  limit : all.length < r.limit

/-- A place where reading can fail: that of a token, or the end of the text. -/
def Spot (r : Reading) (all : List Lexeme) (loc : Nat) : Prop :=
  loc = r.source.utf8ByteSize ∨ ∃ l ∈ all, loc = l.token.loc

def IsStar (l : Lexeme) : Prop := l.token.kind = .mark ∧ l.text? = some "*"

/-- More stars in a row than a type can have. -/
def Starry (all : List Lexeme) : Prop :=
  ∃ stars, stars <:+: all ∧ stars.length = UInt32.size ∧ ∀ l ∈ stars, IsStar l

/-- How reading fails: with a diagnostic at a spot, or by the stars of a type. -/
inductive Refuses (r : Reading) (all : List Lexeme) : Failure → Prop
  | located {loc : Nat} {place : Text.Excerpt} (cause : SyntaxError) : Spot r all loc →
      Text.Excerpt.at? r.source loc = some place → Refuses r all (.rejected (.located place cause))
  | starry : Starry all → Refuses r all .crashed

/-- Reading `ls` gives a result and leaves tokens, both as told by `Q`; or the tokens are refused. Either way no end
    is taken. -/
def Safe (r : Reading) (all : List Lexeme) (x : Reader α) (ls : List Lexeme) (Q : α → List Lexeme → Prop) : Prop :=
  (∃ a rest, x r ls = .ok (a, rest) ∧ Left 0 ls rest ∧ Q a rest) ∨
    ∃ halt, x r ls = .error halt ∧ Left 0 ls halt.left ∧ Refuses r all halt.failure

/-- On fewer than `m` of the last tokens, a reader with result `a` takes `k a` tokens or more. -/
def Takes (r : Reading) (all : List Lexeme) (m : Nat) (k : α → Nat) (x : Reader α) : Prop :=
  ∀ ls, ls <:+ all → ls.length < m → Safe r all x ls fun a rest => Left (k a) ls rest

theorem Safe.mono {x : Reader α} {P Q : α → List Lexeme → Prop} (h : Safe r all x ls P)
    (hPQ : ∀ a rest, P a rest → Q a rest) :
    Safe r all x ls Q := by
  rcases h with ⟨a, rest, run, left, hp⟩ | failed
  · exact .inl ⟨a, rest, run, left, hPQ a rest hp⟩
  · exact .inr failed

theorem Safe.bind {x : Reader α} {f : α → Reader β} {P : α → List Lexeme → Prop} {Q : β → List Lexeme → Prop}
    (hx : Safe r all x ls P) (hf : ∀ a rest, P a rest → Safe r all (f a) rest Q) : Safe r all (x >>= f) ls Q := by
  have run (out) (h : x r ls = out) : (x >>= f) r ls = out.bind fun out => f out.1 r out.2 := by rw [bind_run, h]
  rcases hx with ⟨a, rest, hx, left, hp⟩ | ⟨halt, hx, left, refuses⟩
  · rcases hf a rest hp with ⟨b, last, hb, left', hq⟩ | ⟨halt, hb, left', refuses⟩
    · exact .inl ⟨b, last, (run _ hx).trans hb, left.trans left', hq⟩
    · exact .inr ⟨halt, (run _ hx).trans hb, left.trans left', refuses⟩
  · exact .inr ⟨halt, run _ hx, left, refuses⟩

/-- Tokens are taken, as many as are asked for. -/
theorem Safe.taken {x : Reader α} {k : α → Nat} {a : α} (run : x r ls = .ok (a, rest)) (left : Left (k a) ls rest) :
    Safe r all x ls fun a rest => Left (k a) ls rest := .inl ⟨a, rest, run, left.mono (Nat.zero_le _), left⟩

theorem Safe.failAt {Q : α → List Lexeme → Prop} {loc : Nat} (ls : List Lexeme) (cause : SyntaxError)
    (spot : Spot r all loc) (legible : Legible r all) : Safe r all (failAt loc cause : Reader α) ls Q := by
  obtain ⟨place, shown⟩ : ∃ place, Text.Excerpt.at? r.source loc = some place := by
    rcases spot with rfl | ⟨l, hl, rfl⟩
    · rw [Text.Excerpt.at?, Nat.min_self, Text.splitAt?_eq_some_iff.2 ⟨(String.append_empty (s := r.source)).symm, rfl⟩]
      exact ⟨_, rfl⟩
    · exact legible.place l hl
  have failed : (Reader.failAt loc cause : Reader α) r ls = .error ⟨Failure.at r.source loc cause, ls⟩ := rfl
  rw [Failure.at, shown] at failed
  exact .inr ⟨_, failed, Left.refl ls, .located cause spot shown⟩

namespace Takes

variable {x : Reader α} {f : α → Reader β} {k : β → Nat}

theorem mono {j k : α → Nat} (h : Takes r all n k x) (hm : m ≤ n) (hj : ∀ a, j a ≤ k a) : Takes r all m j x := by
  intro ls suffix short
  exact (h ls suffix (Nat.lt_of_lt_of_le short hm)).mono fun a rest left => left.mono (hj a)

theorem pure {j : α → Nat} {a : α} (h : j a = 0) : Takes r all m j (pure a) := by
  intro ls _ _
  exact Safe.taken rfl ((Left.refl ls).mono (Nat.le_of_eq h))

/-- What is taken first need not be taken again, and less is left for what follows. -/
theorem bind {j : α → Nat} (hx : Takes r all m j x) (hf : ∀ a, Takes r all (m - j a) (fun b => k b - j a) (f a)) :
    Takes r all m k (x >>= f) := by
  intro ls suffix short
  refine (hx ls suffix short).bind fun a rest left => ?_
  have length := left.length
  refine (hf a rest (left.suffix.trans suffix) (by omega)).mono fun b last left' => ?_
  exact (left.trans left').mono (by dsimp only; omega)

/-- A step that takes a token, and what follows it. -/
theorem andThen (hx : Takes r all m (fun _ => 1) x) (hf : ∀ a, Takes r all (m - 1) (fun b => k b - 1) (f a)) :
    Takes r all m k (x >>= f) := bind hx hf

/-- Taking a token that is there. -/
theorem advance {l : Lexeme} {g : Unit → Reader β} (hl : l.token.kind ≠ .eof)
    (hg : Takes r all (m - 1) (fun b => k b - 1) (g ()))
    (suffix : l :: rest <:+ all) (short : (l :: rest).length < m) :
    Safe r all (Reader.advance >>= g) (l :: rest) fun b left => Left (k b) (l :: rest) left := by
  have first := Left.one hl rest
  have length := first.length
  have step : Safe r all Reader.advance (l :: rest) fun _ left => left = rest :=
    .inl ⟨(), rest, rfl, first.mono (Nat.zero_le _), rfl⟩
  refine step.bind fun _ left e => ?_
  subst e
  refine (hg left (first.suffix.trans suffix) (by omega)).mono fun b last more => ?_
  exact (first.trans more).mono (by dsimp only; omega)

/-- A reader that only looks at the tokens. -/
theorem look (hx : ∀ ls, ls <:+ all → ∃ a, x r ls = .ok (a, ls)) (hf : ∀ a, Takes r all m k (f a)) :
    Takes r all m k (x >>= f) := by
  have stay : Takes r all m (fun _ => 0) x := fun ls suffix _ => by
    obtain ⟨a, run⟩ := hx ls suffix
    exact Safe.taken run (Left.refl ls)
  exact bind stay hf

end Takes

/-! ## Single tokens -/

/-- The laps of a loop that goes on take a token. -/
def lap : σ ⊕ β → Nat := Sum.elim (fun _ => 1) fun _ => 0

section

variable (legible : Legible r all) {k : α → Nat}

include legible

theorem text_run {l : Lexeme} (hl : l ∈ all) (ls : List Lexeme) :
    ∃ t, l.text? = some t ∧ text l r ls = .ok (t, ls) := by
  obtain ⟨t, ht⟩ := legible.text l hl
  refine ⟨t, ht, ?_⟩
  rw [text, ht]
  rfl

/-- The next mark is looked at; it is no end. -/
theorem mark?_run (h : ls <:+ all) : mark? r ls = .ok (none, ls) ∨
    ∃ l rest t, ls = l :: rest ∧ l.token.kind = .mark ∧ l.text? = some t ∧ mark? r ls = .ok (some t, ls) := by
  cases ls with
  | nil => exact .inl rfl
  | cons l rest =>
    obtain ⟨t, ht, run⟩ := text_run legible (h.subset List.mem_cons_self) (l :: rest)
    have step : mark? r (l :: rest) =
        (if l.token.kind = .mark then (do return some (← text l)) else return none : Reader _) r (l :: rest) := rfl
    by_cases mark : l.token.kind = .mark
    · refine .inr ⟨l, rest, t, rfl, mark, ht, ?_⟩
      rw [step, if_pos mark, bind_run, run]
      rfl
    · rw [step, if_neg mark]
      exact .inl rfl

theorem atMark_run (w : String) (h : ls <:+ all) : atMark w r ls = .ok (false, ls) ∨
    ∃ l rest, ls = l :: rest ∧ l.token.kind = .mark ∧ l.text? = some w ∧ atMark w r ls = .ok (true, ls) := by
  have step : atMark w r ls = (mark? r ls).bind fun out => .ok (out.1 == some w, out.2) := rfl
  rcases mark?_run legible h with run | ⟨l, rest, t, rfl, mark, ht, run⟩
  · exact .inl (by rw [step, run]; rfl)
  · by_cases e : t = w
    · subst e
      refine .inr ⟨l, rest, rfl, mark, ht, ?_⟩
      rw [step, run]
      simp [Except.bind]
    · refine .inl ?_
      rw [step, run]
      simp [Except.bind, e]

theorem atKeyword_run (w : String) (h : ls <:+ all) : atKeyword w r ls = .ok (false, ls) ∨
    ∃ l rest, ls = l :: rest ∧ l.token.kind = .keyword ∧ atKeyword w r ls = .ok (true, ls) := by
  cases ls with
  | nil => exact .inl rfl
  | cons l rest =>
    obtain ⟨t, -, run⟩ := text_run legible (h.subset List.mem_cons_self) (l :: rest)
    have step : atKeyword w r (l :: rest) =
        (if l.token.kind = .keyword then (do return (← text l) == w) else return false : Reader Bool) r
          (l :: rest) := rfl
    by_cases keyword : l.token.kind = .keyword
    · have found : atKeyword w r (l :: rest) = .ok (t == w, l :: rest) := by
        rw [step, if_pos keyword, bind_run, run]
        rfl
      cases same : t == w with
      | false => exact .inl (found.trans (by rw [same]))
      | true => exact .inr ⟨l, rest, rfl, keyword, found.trans (by rw [same])⟩
    · rw [step, if_neg keyword]
      exact .inl rfl

theorem acceptMark_run (w : String) (h : ls <:+ all) : acceptMark w r ls = .ok (false, ls) ∨
    ∃ l rest, ls = l :: rest ∧ l.token.kind = .mark ∧ l.text? = some w ∧ acceptMark w r ls = .ok (true, rest) := by
  have step : acceptMark w r ls = (atMark w r ls).bind fun out =>
      (if out.1 then (do advance; return true) else return false : Reader Bool) r out.2 := bind_run ..
  rcases atMark_run legible w h with run | ⟨l, rest, rfl, mark, ht, run⟩
  · exact .inl (by rw [step, run]; rfl)
  · exact .inr ⟨l, rest, rfl, mark, ht, by rw [step, run]; rfl⟩

theorem acceptKeyword_run (w : String) (h : ls <:+ all) : acceptKeyword w r ls = .ok (false, ls) ∨
    ∃ l rest, ls = l :: rest ∧ l.token.kind = .keyword ∧ acceptKeyword w r ls = .ok (true, rest) := by
  have step : acceptKeyword w r ls = (atKeyword w r ls).bind fun out =>
      (if out.1 then (do advance; return true) else return false : Reader Bool) r out.2 := bind_run ..
  rcases atKeyword_run legible w h with run | ⟨l, rest, rfl, keyword, run⟩
  · exact .inl (by rw [step, run]; rfl)
  · exact .inr ⟨l, rest, rfl, keyword, by rw [step, run]; rfl⟩

/-- The next token has a text to be named by and a place to be shown. -/
theorem safe_failHere {Q : α → List Lexeme → Prop} (suffix : ls <:+ all) (cause : String → SyntaxError) :
    Safe r all (failHere cause : Reader α) ls Q := by
  cases ls with
  | nil => exact Safe.failAt [] (cause "EOF") (.inl rfl) legible
  | cons l rest =>
    have hl : l ∈ all := suffix.subset List.mem_cons_self
    have last (got : String) : Safe r all (do failAt (← loc) (cause got) : Reader α) (l :: rest) Q :=
      Safe.failAt (l :: rest) (cause got) (.inr ⟨l, hl, rfl⟩) legible
    obtain ⟨t, text⟩ := legible.text l hl
    rw [Safe, failHere_run, List.head?_cons, Lexeme.describe?, text]
    by_cases eof : l.token.kind = .eof
    · rw [if_pos eof]
      exact last "EOF"
    · rw [if_neg eof]
      exact last t

theorem safe_acceptKeyword (suffix : ls <:+ all) (w : String) :
    Safe r all (acceptKeyword w) ls fun b rest => Left (if b then 1 else 0) ls rest := by
  rcases acceptKeyword_run legible w suffix with run | ⟨l, rest, rfl, keyword, run⟩
  · exact Safe.taken run (Left.refl ls)
  · exact Safe.taken run (Left.one (by simp [keyword]) rest)

namespace Takes

variable {f : Bool → Reader α}

theorem acceptMark {w : String} (yes : Takes r all (m - 1) (fun a => k a - 1) (f true))
    (no : Takes r all m k (f false)) :
    Takes r all m k (acceptMark w >>= f) := by
  have first : Takes r all m (fun b => if b then 1 else 0) (Reader.acceptMark w) := by
    intro ls suffix _
    rcases acceptMark_run legible w suffix with run | ⟨l, rest, rfl, mark, -, run⟩
    · exact Safe.taken run (Left.refl ls)
    · exact Safe.taken run (Left.one (by simp [mark]) rest)
  refine bind first fun b => ?_
  cases b with
  | true => exact yes
  | false => exact no

theorem acceptKeyword {w : String} (yes : Takes r all (m - 1) (fun a => k a - 1) (f true))
    (no : Takes r all m k (f false)) :
    Takes r all m k (acceptKeyword w >>= f) := by
  have first : Takes r all m (fun b => if b then 1 else 0) (Reader.acceptKeyword w) :=
    fun _ suffix _ => safe_acceptKeyword legible suffix w
  refine bind first fun b => ?_
  cases b with
  | true => exact yes
  | false => exact no

/-- What follows a look at the next mark may count on it. -/
theorem mark? {f : Option String → Reader α} (none : Takes r all m k (f none))
    (some : ∀ t l rest, l.token.kind = .mark → l :: rest <:+ all → (l :: rest).length < m →
      Safe r all (f (some t)) (l :: rest) fun a left => Left (k a) (l :: rest) left) :
      Takes r all m k (mark? >>= f) := by
  intro ls suffix short
  rw [Safe, bind_run]
  rcases mark?_run legible suffix with run | ⟨l, rest, t, rfl, mark, -, run⟩
  · rw [run]
    exact none ls suffix short
  · rw [run]
    exact some t l rest mark suffix short

theorem atMark {w : String} (h : ∀ b, Takes r all m k (f b)) : Takes r all m k (atMark w >>= f) := by
  refine look (fun ls suffix => ?_) h
  rcases atMark_run legible w suffix with run | ⟨l, rest, -, -, -, run⟩
  · exact ⟨false, run⟩
  · exact ⟨true, run⟩

theorem atKeyword {w : String} (h : ∀ b, Takes r all m k (f b)) : Takes r all m k (atKeyword w >>= f) := by
  refine look (fun ls suffix => ?_) h
  rcases atKeyword_run legible w suffix with run | ⟨l, rest, -, -, run⟩
  · exact ⟨false, run⟩
  · exact ⟨true, run⟩

omit legible in
theorem atEnd (h : ∀ b, Takes r all m k (f b)) : Takes r all m k (atEnd >>= f) := by
  refine look (fun ls _ => ?_) h
  cases ls with
  | nil => exact ⟨false, rfl⟩
  | cons l rest => exact ⟨_, rfl⟩

omit legible in
/-- The place of the next token is one where reading can fail. -/
theorem loc {f : Nat → Reader α} (h : ∀ n, Spot r all n → Takes r all m k (f n)) : Takes r all m k (loc >>= f) := by
  intro ls suffix short
  cases ls with
  | nil => exact h r.source.utf8ByteSize (.inl rfl) [] suffix short
  | cons l rest => exact h l.token.loc (.inr ⟨l, suffix.subset List.mem_cons_self, rfl⟩) (l :: rest) suffix short

theorem failHere (cause : String → SyntaxError) : Takes r all m k (failHere cause) :=
  fun _ suffix _ => safe_failHere legible suffix cause

theorem failAt {n : Nat} (cause : SyntaxError) (spot : Spot r all n) : Takes r all m k (failAt n cause) :=
  fun ls _ _ => Safe.failAt ls cause spot legible

theorem expectMark (w : String) : Takes r all m (fun _ => 1) (expectMark w) :=
  acceptMark legible (pure rfl) (failHere legible _)

theorem identifier : Takes r all m (fun _ => 1) identifier := by
  intro ls suffix short
  cases ls with
  | nil => exact failHere legible .expectedIdentifier [] suffix short
  | cons l rest =>
    have step : Reader.identifier r (l :: rest) =
        (if l.token.kind = .ident then (do let name ← text l; Reader.advance; return name)
        else Reader.failHere .expectedIdentifier : Reader String) r (l :: rest) := rfl
    obtain ⟨t, -, run⟩ := text_run legible (suffix.subset List.mem_cons_self) (l :: rest)
    by_cases ident : l.token.kind = .ident
    · have named : Reader.identifier r (l :: rest) = .ok (t, rest) := by
        rw [step, if_pos ident, bind_run, run]
        rfl
      exact Safe.taken named (Left.one (by simp [ident]) rest)
    · rw [Safe, step, if_neg ident]
      exact failHere legible .expectedIdentifier (l :: rest) suffix short

theorem literal : Takes r all m (fun _ => 1) literal := by
  intro ls suffix short
  rcases ls with _ | ⟨⟨⟨kind, n, len⟩, text?⟩, rest⟩
  · exact failHere legible .expectedExpression [] suffix short
  have spot : Spot r all n := .inr ⟨_, suffix.subset List.mem_cons_self, rfl⟩
  have taken (e : Expr) (h : kind ≠ .eof) : Safe r all (do Reader.advance; return e) (⟨⟨kind, n, len⟩, text?⟩ :: rest)
      fun _ left => Left 1 (⟨⟨kind, n, len⟩, text?⟩ :: rest) left := Safe.taken rfl (Left.one h rest)
  cases kind with
  | ident =>
    have named : Takes r all m (fun _ => 1) (do return Expr.ident (← Reader.identifier)) :=
      andThen (identifier legible) fun _ => pure rfl
    exact named _ suffix short
  | str contents? =>
    cases contents? with
    | some t => exact taken (.str t) (by simp)
    | none => exact failAt legible .stringWithoutContents spot _ suffix short
  | number value? =>
    cases value? with
    | some v => exact taken (.int v) (by simp)
    | none => exact failAt legible .numberWithoutValue spot _ suffix short
  | mark | keyword | eof => exact failHere legible .expectedExpression _ suffix short

/-! ## Repetition -/

/-- A loop is left before its laps are used up, since each that goes on takes a token. -/
theorem iterate {step : σ → Reader (σ ⊕ β)} (hs : ∀ s, Takes r all m lap (step s)) (s : σ) :
    Takes r all m (fun _ => 0) (iterate step s) := by
  have laps : ∀ n s, Takes r all (min m n) (fun _ => 0) (repeatAtMost step n s) := by
    intro n
    induction n with
    | zero =>
      intro s ls _ short
      omega
    | succ n ih =>
      intro s
      refine bind ((hs s).mono (Nat.min_le_left ..) fun _ => Nat.le_refl _) fun out => ?_
      cases out with
      | inl s => exact (ih s).mono (by simp only [lap, Sum.elim_inl]; omega) fun _ => Nat.zero_le _
      | inr b => exact pure (Nat.zero_sub _)
  intro ls suffix short
  have few := Nat.lt_of_le_of_lt suffix.length_le legible.limit
  exact laps r.limit s ls suffix (by omega)

theorem listed {item : Reader β} (hi : Takes r all m (fun _ => 1) item) : Takes r all m (fun _ => 0) (listed item) := by
  have next (items : Array β) : Takes r all m lap (nextItem item items) := by
    refine andThen hi fun a => acceptMark legible (pure rfl) ?_
    exact andThen (expectMark legible ",") fun _ => pure rfl
  refine acceptMark legible (pure rfl) ?_
  exact bind (iterate legible next #[]) fun _ => pure rfl

/-! ## Expressions -/

section

variable {expr : Reader Expr} (he : Takes r all (m - 1) (fun _ => 1) expr)

include he

theorem primary : Takes r all m (fun _ => 1) (primary expr) := by
  refine acceptMark legible ?_ (literal legible)
  exact andThen he fun e => andThen (expectMark legible ")") fun _ => pure rfl

theorem suffixed (node : Expr) : Takes r all m lap (suffixed expr node) := by
  refine loc fun here spot => acceptMark legible ?_ (acceptMark legible ?_ (pure rfl))
  · cases node with
    | ident callee => exact bind (listed legible he) fun _ => pure rfl
    | _ => exact failAt legible .calleeNotNamed spot
  · exact andThen he fun index => andThen (expectMark legible "]") fun _ => pure rfl

theorem postfixed : Takes r all m (fun _ => 1) (postfixed expr) := by
  refine andThen (primary legible he) fun node => ?_
  exact (iterate legible (suffixed legible he) node).mono (Nat.sub_le ..) fun _ => Nat.le_refl _

end

/-- An operator of a level is a mark, so it is taken before its right operand. -/
theorem operation {operand : Reader Expr} (ho : Takes r all m (fun _ => 1) operand) (ops : List BinaryOp)
    (tail : Array (BinaryOp × Expr)) : Takes r all m lap (operation operand ops tail) := by
  refine mark? legible (pure rfl) fun t l rest mark suffix short => ?_
  simp only [Option.bind_some]
  cases ops.find? (·.symbol == t) with
  | none => exact Safe.taken rfl (Left.refl _)
  | some op =>
    refine advance (by simp [mark]) (bind (ho.mono (Nat.sub_le ..) fun _ => Nat.le_refl _)
      fun _ => pure ?_) suffix short
    rfl

theorem joined {operand : Reader Expr} (ho : Takes r all m (fun _ => 1) operand) (levels : List (List BinaryOp)) :
    Takes r all m (fun _ => 1) (joined operand levels) := by
  induction levels with
  | nil => exact ho
  | cons ops tighter ih =>
    have more := (iterate legible (operation legible ih ops) #[]).mono (Nat.sub_le m 1) fun _ => Nat.le_refl _
    refine andThen ih fun first => bind more fun _ => ?_
    exact pure rfl

theorem assignment {side : Reader Expr} (hs : Takes r all m (fun _ => 1) side) :
    Takes r all m (fun _ => 1) (assignment side) := by
  refine loc fun start spot => andThen hs fun left => acceptMark legible ?_ (pure rfl)
  cases left with
  | ident target =>
    refine bind (hs.mono (by omega) fun _ => Nat.zero_le _) fun value => atMark legible fun again => ?_
    cases again with
    | true => exact andThen (failHere legible .chainedAssignment) fun _ => pure rfl
    | false => exact pure rfl
  | _ => exact failAt legible .assignmentTarget spot

/-- Expressions nest less deeply than there are tokens. -/
theorem nestedExpr (n : Nat) : Takes r all n (fun _ => 1) (nestedExpr n) := by
  induction n with
  | zero =>
    intro ls _ short
    omega
  | succ n ih => exact assignment legible (joined legible (postfixed (m := n + 1) legible ih) _)

theorem expr : Takes r all m (fun _ => 1) expr := by
  intro ls suffix _
  exact nestedExpr legible r.limit ls suffix (Nat.lt_of_le_of_lt suffix.length_le legible.limit)

/-! ## Types -/

/-- One more star is taken, unless the type is as deep as can be. -/
theorem star (ty : Ty) (suffix : ls <:+ all)
    (full : ∀ l rest, ls = l :: rest → IsStar l → ty.pointer? = none → Starry all) :
    Safe r all (star ty) ls fun out rest => out.elim (fun ty' => ∃ l, ls = l :: rest ∧ IsStar l ∧
      ty.pointer? = some ty')
      fun _ => rest = ls := by
  rw [Safe, Reader.star, bind_run]
  rcases acceptMark_run legible "*" suffix with run | ⟨l, rest, rfl, mark, text, run⟩
  · rw [run]
    exact .inl ⟨.inr ty, ls, rfl, Left.refl ls, rfl⟩
  · rw [run]
    have left : Left 0 (l :: rest) rest := (Left.one (by simp [mark]) rest).mono (Nat.zero_le _)
    cases deeper : ty.pointer? with
    | none => exact .inr ⟨⟨.crashed, rest⟩, rfl, left, .starry (full l rest rfl ⟨mark, text⟩ deeper)⟩
    | some ty' => exact .inl ⟨.inl ty', rest, rfl, left, l, rfl, ⟨mark, text⟩, rfl⟩

/-- A type has as many stars as have been taken behind its base. -/
theorem stars (n : Nat) (ty : Ty) (taken ls : List Lexeme) (suffix : taken ++ ls <:+ all)
    (count : taken.length = ty.depth.toNat) (starry : ∀ l ∈ taken, IsStar l) (short : ls.length < n) :
    Safe r all (repeatAtMost Reader.star n ty) ls fun _ rest => Left 0 ls rest := by
  induction n generalizing ty taken ls with
  | zero => omega
  | succ n ih =>
    have all_stars {l : Lexeme} (hl : IsStar l) : ∀ l' ∈ taken ++ [l], IsStar l' := by
      intro l' hl'
      rcases List.mem_append.1 hl' with hl' | hl'
      · exact starry l' hl'
      · exact List.mem_singleton.1 hl' ▸ hl
    refine Safe.bind (star legible ty ((List.suffix_append taken ls).trans suffix) ?_) fun out rest hout => ?_
    · intro l rest e hl deep
      subst e
      refine ⟨taken ++ [l], ?_, ?_, all_stars hl⟩
      · rw [← List.singleton_append, ← List.append_assoc] at suffix
        exact (List.prefix_append _ rest).isInfix.trans suffix.isInfix
      · have bound : ty.depth.toNat < UInt32.size := ty.depth.toNat_lt
        rw [Ty.pointer?] at deep
        split at deep
        · cases deep
        · rw [List.length_append, count, List.length_singleton]
          omega
    · cases out with
      | inr ty' =>
        obtain rfl := hout
        exact Safe.taken rfl (Left.refl rest)
      | inl ty' =>
        obtain ⟨l, rfl, hl, deeper⟩ := hout
        have count' : (taken ++ [l]).length = ty'.depth.toNat := by
          rw [Ty.pointer?] at deeper
          split at deeper
          · cases deeper
            rw [List.length_append, count, UInt32.toNat_add, Nat.mod_eq_of_lt ‹_›]
            rfl
          · cases deeper
        have next := ih ty' (taken ++ [l]) rest (by simpa using suffix) count' (all_stars hl) (by simpa using short)
        exact next.mono fun _ last left => ((Left.one (by simp [hl.1]) rest).trans left).mono (Nat.zero_le _)

theorem type : Takes r all m (fun _ => 1) type := by
  intro ls suffix _
  have base : Safe r all baseType ls fun ty rest => ty.depth = 0 ∧ Left 1 ls rest := by
    refine (safe_acceptKeyword legible suffix "int").bind fun int rest left => ?_
    cases int with
    | true => exact .inl ⟨.int, rest, rfl, Left.refl rest, rfl, left⟩
    | false =>
      have suffix' := left.suffix.trans suffix
      refine (safe_acceptKeyword legible suffix' "char").bind fun char last left' => ?_
      cases char with
      | true => exact .inl ⟨.char, last, rfl, Left.refl last, rfl, left.trans left'⟩
      | false => exact safe_failHere legible (left'.suffix.trans suffix') .expectedType
  refine base.bind fun ty rest h => ?_
  obtain ⟨flat, left⟩ := h
  have suffix' := left.suffix.trans suffix
  have few := Nat.lt_of_le_of_lt suffix'.length_le legible.limit
  have more := stars legible r.limit ty [] rest suffix' (by rw [flat]; rfl) (by simp) few
  exact more.mono fun _ last left' => left.trans left'

/-! ## Statements -/

section

variable {stmt : Reader Stmt} (hs : Takes r all m (fun _ => 1) stmt)

include hs

theorem nextStmt (body : Array Stmt) : Takes r all m lap (nextStmt stmt body) := by
  refine acceptMark legible (pure rfl) (atEnd fun last => ?_)
  cases last with
  | true => exact failHere legible .unclosedBlock
  | false => exact bind hs fun _ => pure rfl

theorem block : Takes r all m (fun _ => 1) (block stmt) := by
  refine andThen (expectMark legible _) fun _ => ?_
  exact bind ((iterate legible (nextStmt legible hs) #[]).mono (Nat.sub_le ..) fun _ => Nat.le_refl _) fun _ => pure rfl

theorem guarded : Takes r all m (fun _ => 1) (guarded stmt) := by
  refine andThen (expectMark legible _) fun _ => andThen (expr legible)
    fun _ => andThen (expectMark legible _) fun _ => ?_
  exact bind ((block legible hs).mono (by omega) fun _ => Nat.le_refl _) fun _ => pure rfl

theorem nextBranch (branches : Array (Expr × List Stmt)) : Takes r all m lap (nextBranch stmt branches) := by
  refine andThen (guarded legible hs) fun _ => acceptKeyword legible (acceptKeyword legible (pure rfl) ?_) (pure rfl)
  exact bind ((block legible hs).mono (by omega) fun _ => Nat.le_refl _) fun _ => pure rfl

theorem ifChain : Takes r all m (fun _ => 0) (ifChain stmt) :=
  bind (iterate legible (nextBranch legible hs) #[]) fun _ => pure rfl

end

/-- Statements nest less deeply than there are tokens. -/
theorem nestedStmt (n : Nat) : Takes r all n (fun _ => 1) (nestedStmt n) := by
  induction n with
  | zero =>
    intro ls _ short
    omega
  | succ n ih =>
    refine atKeyword legible fun int => atKeyword legible fun char => ?_
    cases int || char with
    | true =>
      exact andThen (type legible) fun _ => andThen (identifier legible) fun _ => andThen (expectMark legible _)
        fun _ => pure rfl
    | false =>
      refine acceptKeyword legible ?_ (acceptKeyword legible ?_ (acceptKeyword legible ?_ ?_))
      · exact andThen (expr legible) fun _ => andThen (expectMark legible _) fun _ => pure rfl
      · exact bind (ifChain legible ih) fun _ => pure rfl
      · exact andThen (guarded legible ih) fun _ => pure rfl
      · exact andThen (expr legible) fun _ => andThen (expectMark legible _) fun _ => pure rfl

theorem stmt : Takes r all m (fun _ => 1) stmt := by
  intro ls suffix _
  exact nestedStmt legible r.limit ls suffix (Nat.lt_of_le_of_lt suffix.length_le legible.limit)

/-! ## Functions -/

theorem function : Takes r all m (fun _ => 1) function := by
  have param : Takes r all (m - 1 - 1 - 1) (fun _ => 1) param :=
    andThen (type legible) fun _ => andThen (identifier legible) fun _ => pure rfl
  refine andThen (type legible) fun _ => andThen (identifier legible)
    fun _ => andThen (expectMark legible _) fun _ => ?_
  exact bind (listed legible param) fun _ => andThen (block legible (stmt legible)) fun _ => pure rfl

theorem functions : Takes r all m (fun _ => 0) functions := by
  have next (fs : Array Function) : Takes r all m lap (nextFunction fs) := by
    refine atEnd fun last => ?_
    cases last with
    | true => exact pure rfl
    | false => exact andThen (function legible) fun _ => pure rfl
  exact bind (iterate legible next #[]) fun _ => pure rfl

end Takes

end

end Reader

/-! ## Whole programs -/

theorem Reader.legible_of_text? {source : String} {tokens : List Token}
    (h : ∀ t ∈ tokens, ∃ text, t.text? source = some text) :
    Legible ⟨source, tokens.length + 1⟩ (tokens.map (Token.lexeme source)) where
  text l hl := by
    obtain ⟨t, ht, rfl⟩ := List.mem_map.1 hl
    exact h t ht
  place l hl := by
    obtain ⟨t, ht, rfl⟩ := List.mem_map.1 hl
    obtain ⟨text, shown⟩ := h t ht
    exact Option.isSome_iff_exists.1 (Token.isSome_at?_of_text? shown)
  limit := by rw [List.length_map]; exact Nat.lt_succ_self _

/-- Tokens whose spans are parts of the source are read or refused. -/
theorem Program.refuses_of_ofTokens {source : String} {tokens : List Token} {e : Failure}
    (h : ∀ t ∈ tokens, ∃ text, t.text? source = some text) (failed : ofTokens source tokens = .error e) :
    Reader.Refuses ⟨source, tokens.length + 1⟩ (tokens.map (Token.lexeme source)) e := by
  have read := Reader.Takes.functions (Reader.legible_of_text? h) (tokens.map (Token.lexeme source)) List.suffix_rfl
    (Nat.lt_succ_self _)
  rw [ofTokens_eq_bind] at failed
  rcases read with ⟨fs, rest, run, -⟩ | ⟨halt, run, -, refuses⟩
  · rw [run] at failed
    cases failed
  · rw [run] at failed
    cases failed
    exact refuses

end DotCom
