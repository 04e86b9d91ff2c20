/-
  DotCom.Proofs.Command.Paths — the file name at the end of a path and its extension, said by divisions of the
  path: a path with another extension is the path up to its last dot and the new one behind it.

  - `EndsIn`: the last part of a path. `HasExtension`: its file name has an extension.
  - `WithExtension`: a path and the same path with another extension.
  - `withExtension_of_namesFile`: where both name files, this is what replacing the extension does.
  - `WithExtension.eq_self_iff`: when it is the path itself.
-/

import DotCom.Command.Path
import DotCom.Proofs.Tiling

namespace DotCom.Command

/-- The last part of a path, which follows its last slash. -/
structure EndsIn (path parent name : List Char) : Prop where
  text : path = parent ++ name
  border : parent = [] ∨ ∃ dirs, parent = dirs ++ ['/']
  clear : '/' ∉ name

/-- The parts of a path that name no file: nothing, the directory itself and the one above. -/
def IsDots (name : List Char) : Prop := name = [] ∨ name = ['.'] ∨ name = ['.', '.']

/-- A path whose last part can name a file. -/
def NamesFile (path : List Char) : Prop := ∃ parent name, EndsIn path parent name ∧ ¬ IsDots name

/-- A path whose file name has an extension; a dot in front of a name starts none. -/
def HasExtension (path ext : List Char) : Prop :=
  ∃ parent stem, EndsIn path parent (stem ++ '.' :: ext) ∧ stem ≠ [] ∧ '.' ∉ ext

/-- A path and the same path with another extension: in the place of the old one, or behind a name that has none. -/
inductive WithExtension (ext : List Char) : (path target : List Char) → Prop
  | replaced {path parent stem old : List Char} : EndsIn path parent (stem ++ '.' :: old) → stem ≠ [] → '.' ∉ old →
      WithExtension ext path (parent ++ stem ++ '.' :: ext)
  | added {path : List Char} : (∀ old, ¬ HasExtension path old) → WithExtension ext path (path ++ '.' :: ext)

variable {path parent parent' name name' stem ext old target : List Char}

/-! ## The last part -/

theorem EndsIn.span (h : EndsIn path parent name) :
    path.reverse.takeWhile (· ≠ '/') = name.reverse ∧ path.reverse.dropWhile (· ≠ '/') = parent.reverse := by
  rw [h.text, List.reverse_append]
  refine Token.span_eq (fun c hc => decide_eq_true fun slash => ?_) fun c hc => ?_
  · exact h.clear (slash ▸ List.mem_reverse.1 hc)
  · rcases h.border with rfl | ⟨dirs, rfl⟩
    · cases hc
    · rw [List.reverse_append] at hc
      cases hc
      decide

theorem EndsIn.unique (h : EndsIn path parent name) (h' : EndsIn path parent' name') :
    parent = parent' ∧ name = name' :=
  ⟨List.reverse_inj.1 (h.span.2.symm.trans h'.span.2), List.reverse_inj.1 (h.span.1.symm.trans h'.span.1)⟩

theorem exists_endsIn (path : List Char) : ∃ parent name, EndsIn path parent name := by
  obtain ⟨front, rest, cut, clear, slash⟩ := Token.exists_before '/' path.reverse
  refine ⟨rest.reverse, front.reverse, ?_, ?_, fun h => clear (List.mem_reverse.1 h)⟩
  · rw [← List.reverse_append, ← cut, List.reverse_reverse]
  · rcases slash with rfl | ⟨tail, rfl⟩
    · exact .inl rfl
    · exact .inr ⟨tail.reverse, List.reverse_cons⟩

/-- No slash and no single dot is taken off a path that ends in a longer name. -/
theorem trimEnd_of_endsIn (h : EndsIn path parent name) (empty : name ≠ []) (dot : name ≠ ['.']) :
    trimEnd path.reverse = path.reverse := by
  rw [h.text, List.reverse_append]
  have clear : '/' ∉ name.reverse := fun slash => h.clear (List.mem_reverse.1 slash)
  have longer : name.reverse ≠ ['.'] := fun single => dot (List.reverse_inj.1 single)
  cases reversed : name.reverse with
  | nil => exact absurd (List.reverse_eq_nil_iff.1 reversed) empty
  | cons c cs =>
    rw [reversed] at clear longer
    cases cs with
    | nil =>
      have other : c ≠ '.' := fun single => longer (by rw [single])
      have plain : c ≠ '/' := fun slash => clear (by simp [slash])
      simp [trimEnd, other, plain]
    | cons d ds =>
      have plain : c ≠ '/' ∧ d ≠ '/' := ⟨fun slash => clear (by simp [slash]), fun slash => clear (by simp [slash])⟩
      simp [trimEnd, plain]

theorem fileName?_of_endsIn (h : EndsIn path parent name) (proper : ¬ IsDots name) :
    fileName? path = some (splitName parent name.reverse) := by
  unfold IsDots at proper
  rw [not_or, not_or] at proper
  have trimmed := trimEnd_of_endsIn h proper.1 proper.2.1
  have up : ¬ (name.reverse = [] ∨ name.reverse = ['.', '.']) := by
    rintro (empty | dots)
    · exact proper.1 (List.reverse_eq_nil_iff.1 empty)
    · exact proper.2.2 (List.reverse_inj.1 dots)
  simp only [fileName?, trimmed, h.span.1, h.span.2, if_neg up, List.reverse_reverse]

/-- The directory above is not a file. -/
theorem fileName?_of_up (h : EndsIn path parent ['.', '.']) : fileName? path = none := by
  have trimmed := trimEnd_of_endsIn h (by simp) (by simp)
  simp only [fileName?, trimmed, h.span.1]
  exact if_pos (.inr rfl)

/-! ## Extensions -/

/-- Dividing a reversed name at its last dot. -/
theorem span_dot (stem : List Char) (dot : '.' ∉ ext) :
    (stem ++ '.' :: ext).reverse.takeWhile (· ≠ '.') = ext.reverse ∧
      (stem ++ '.' :: ext).reverse.dropWhile (· ≠ '.') = '.' :: stem.reverse := by
  have cut : (stem ++ '.' :: ext).reverse = ext.reverse ++ '.' :: stem.reverse := by simp
  rw [cut]
  refine Token.span_eq (fun c hc => decide_eq_true fun e => ?_) fun c hc => ?_
  · exact dot (e ▸ List.mem_reverse.1 hc)
  · cases hc
    decide

theorem splitName_of_extension (parent : List Char) (stem_ne : stem ≠ []) (dot : '.' ∉ ext) :
    splitName parent (stem ++ '.' :: ext).reverse = ⟨parent, stem, some ext⟩ := by
  obtain ⟨taken, dropped⟩ := span_dot stem dot
  obtain ⟨c, cs, reversed⟩ := List.exists_cons_of_ne_nil fun empty => stem_ne (List.reverse_eq_nil_iff.1 empty)
  rw [splitName, taken, dropped, reversed]
  simp only [← reversed, List.reverse_reverse]

theorem splitName_of_plain (parent : List Char)
    (plain : ∀ stem ext, name = stem ++ '.' :: ext → '.' ∉ ext → stem = []) :
    splitName parent name.reverse = ⟨parent, name, none⟩ := by
  obtain ⟨front, rest, cut, dot, ends⟩ := Token.exists_before '.' name.reverse
  have dot' : '.' ∉ front.reverse := fun h => dot (List.mem_reverse.1 h)
  rcases ends with rfl | ⟨tail, rfl⟩
  · have other : ∀ c ∈ front, decide (c ≠ '.') = true := fun c hc => decide_eq_true fun e => dot (e ▸ hc)
    have none : (front ++ []).dropWhile (· ≠ '.') = [] := (Token.span_eq other (by simp)).2
    rw [← cut] at none
    rw [splitName, none, List.reverse_reverse]
  · have divided : name = tail.reverse ++ '.' :: front.reverse := by
      rw [List.reverse_eq_iff.1 cut]
      simp
    have first := plain _ _ divided dot'
    rw [splitName, divided, (span_dot _ dot').2, first, List.reverse_reverse]
    rfl

theorem not_isDots_dot (stem_ne : stem ≠ []) (dot : stem ≠ ['.']) : ¬ IsDots (stem ++ ['.']) := by
  rintro (h | h | h)
  · exact List.cons_ne_nil _ _ (List.append_eq_nil_iff.1 h).2
  · have same : stem ++ ['.'] = [] ++ ['.'] := h
    exact stem_ne (List.append_cancel_right same)
  · have same : stem ++ ['.'] = ['.'] ++ ['.'] := h
    exact dot (List.append_cancel_right same)

/-- The old extension is replaced; but where a single dot stands before it, the directory above is left. -/
theorem withExtension_of_extension (h : EndsIn path parent (stem ++ '.' :: old))
    (proper : ¬ IsDots (stem ++ '.' :: old)) (stem_ne : stem ≠ []) (dot : '.' ∉ old) (ext : List Char) :
    withExtension path ext = if stem = ['.'] then parent ++ ['.', '.'] else parent ++ stem ++ '.' :: ext := by
  have divided : (fileName? path).bind FileName.ext? = some old := by
    rw [fileName?_of_endsIn h proper, splitName_of_extension parent stem_ne dot]
    rfl
  have kept : path.take (path.length - old.length) = parent ++ (stem ++ ['.']) := by
    have whole : path = parent ++ (stem ++ ['.']) ++ old := by simp [h.text]
    rw [whole, List.length_append, Nat.add_sub_cancel, List.take_left']
    rfl
  have slash : '/' ∉ stem ++ ['.'] := by
    intro slash
    rcases List.mem_append.1 slash with slash | slash
    · exact h.clear (List.mem_append_left _ slash)
    · simp at slash
  have ends : EndsIn (parent ++ (stem ++ ['.'])) parent (stem ++ ['.']) := ⟨rfl, h.border, slash⟩
  rw [withExtension, divided]
  dsimp only
  rw [kept, setExtension]
  by_cases single : stem = ['.']
  · rw [single] at ends ⊢
    rw [fileName?_of_up ends, if_pos rfl]
    rfl
  · rw [fileName?_of_endsIn ends (not_isDots_dot stem_ne single), if_neg single]
    rw [splitName_of_extension parent stem_ne (by simp)]

theorem withExtension_of_plain (h : EndsIn path parent name) (proper : ¬ IsDots name)
    (plain : ∀ stem ext, name = stem ++ '.' :: ext → '.' ∉ ext → stem = []) (ext : List Char) :
    withExtension path ext = path ++ '.' :: ext := by
  have divided := (fileName?_of_endsIn h proper).trans (congrArg some (splitName_of_plain parent plain))
  rw [withExtension, divided]
  dsimp only [Option.bind]
  rw [setExtension, divided, h.text]

/-- A result that still names a file is the path with the other extension. -/
theorem withExtension_of_namesFile (source : NamesFile path) (target : NamesFile (withExtension path ext)) :
    WithExtension ext path (withExtension path ext) := by
  obtain ⟨parent, name, ends, proper⟩ := source
  by_cases plain : ∀ stem ext, name = stem ++ '.' :: ext → '.' ∉ ext → stem = []
  · rw [withExtension_of_plain ends proper plain]
    refine .added ?_
    rintro old ⟨parent', stem, ends', stem_ne, dot⟩
    exact stem_ne (plain stem old (ends.unique ends').2 dot)
  · simp only [not_forall] at plain
    obtain ⟨stem, old, rfl, dot, stem_ne⟩ := plain
    have replaced := withExtension_of_extension ends proper stem_ne dot ext
    by_cases single : stem = ['.']
    · rw [if_pos single] at replaced
      have up : EndsIn (parent ++ ['.', '.']) parent ['.', '.'] := ⟨rfl, ends.border, by simp⟩
      obtain ⟨parent', name', ends', proper'⟩ := target
      rw [replaced] at ends'
      exact absurd (.inr (.inr (ends'.unique up).2)) proper'
    · rw [if_neg single] at replaced
      rw [replaced]
      exact .replaced ends stem_ne dot

theorem WithExtension.eq_self_iff (h : WithExtension ext path target) (dot : '.' ∉ ext) :
    target = path ↔ HasExtension path ext := by
  cases h with
  | added none => exact iff_of_false (by simp) (none ext)
  | @replaced parent stem old ends stem_ne dot' =>
    constructor
    · intro same
      have same' : old = ext := by simpa [ends.text] using same.symm
      exact ⟨parent, stem, same' ▸ ends, stem_ne, dot⟩
    · rintro ⟨parent', stem', ends', -⟩
      have same := (ends.unique ends').2
      have last := (span_dot stem dot').1
      rw [same, (span_dot stem' dot).1, List.reverse_inj] at last
      rw [ends.text, last, List.append_assoc]

end DotCom.Command
