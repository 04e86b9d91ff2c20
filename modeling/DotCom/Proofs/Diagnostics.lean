/-
  DotCom.Proofs.Diagnostics — a diagnostic points at the right place. The excerpt at an offset is the whole line
  that the offset lies in, with a caret under it; and every offset that the front end reports lies between two
  characters, so it has an excerpt.

  - `Text.LineAt`: the line of a text around a place, said by a division of the text into four parts.
  - `Text.Excerpt.at?_eq_some_iff`, `Text.Excerpt.at?_eq_none_iff`: the excerpt at an offset.
  - `Token.reports_of_scan`, `Program.reports_of_ofTokens`: where scanning and reading fail.
  - `diagnostics_point`: all of this together.
-/

import DotCom.Proofs.Parsing.Progress
import DotCom.Proofs.Tiling

namespace DotCom

namespace Text

/-- A byte offset between two characters of a text, or at one of its ends. -/
def Boundary (source : String) (loc : Nat) : Prop :=
  ∃ before behind, source = before ++ behind ∧ before.utf8ByteSize = loc

/-- The line of a text around a place: all that is above it, its parts to the left and to the right of the
    place, and all that is below. -/
structure LineAt (source : String) (loc : Nat) (above left right below : String) : Prop where
  text : source = above ++ left ++ right ++ below
  place : (above ++ left).utf8ByteSize = loc
  unbroken : '\n' ∉ (left ++ right).toList
  starts : above = "" ∨ ∃ t, above = t ++ "\n"
  ends : below = "" ∨ ∃ t, below = "\n" ++ t

theorem Boundary.le {source : String} {loc : Nat} (h : Boundary source loc) : loc ≤ source.utf8ByteSize := by
  obtain ⟨before, behind, rfl, rfl⟩ := h
  rw [String.utf8ByteSize_append]
  omega

theorem boundary_end (source : String) : Boundary source source.utf8ByteSize := ⟨source, "", by simp, rfl⟩

namespace Excerpt

/-- An excerpt quotes the line around a place, and its caret stands behind a space for the quote and one for
    every character to the left of the place. -/
def Shows (e : Excerpt) (source : String) (loc : Nat) : Prop :=
  ∃ above left right below, LineAt source loc above left right below ∧
    e = ⟨"'" ++ (left ++ right) ++ "'", String.ofList (List.replicate (left.length + 1) ' ' ++ ['^'])⟩

/-- A text divides behind its last newline. -/
theorem exists_line_start (s : String) : ∃ above left : String, s = above ++ left ∧ '\n' ∉ left.toList ∧
    (above = "" ∨ ∃ t, above = t ++ "\n") := by
  obtain ⟨line, rest, cut, clear, ends⟩ := Token.exists_before '\n' s.toList.reverse
  refine ⟨String.ofList rest.reverse, String.ofList line.reverse, ?_, by simpa using clear, ?_⟩
  · rw [← String.ofList_append, ← List.reverse_append, ← cut, List.reverse_reverse, String.ofList_toList]
  · rcases ends with rfl | ⟨tail, rfl⟩
    · exact .inl rfl
    · exact .inr ⟨String.ofList tail.reverse, by rw [List.reverse_cons, String.ofList_append]⟩

/-- A text divides before its first newline. -/
theorem exists_line_end (s : String) : ∃ right below : String, s = right ++ below ∧ '\n' ∉ right.toList ∧
    (below = "" ∨ ∃ t, below = "\n" ++ t) := by
  obtain ⟨line, rest, cut, clear, ends⟩ := Token.exists_before '\n' s.toList
  refine ⟨String.ofList line, String.ofList rest, ?_, by simpa using clear, ?_⟩
  · rw [← String.ofList_append, ← cut, String.ofList_toList]
  · rcases ends with rfl | ⟨tail, rfl⟩
    · exact .inl rfl
    · have joined : String.ofList (['\n'] ++ tail) = "\n" ++ String.ofList tail := String.ofList_append
      exact .inr ⟨String.ofList tail, joined⟩

theorem exists_lineAt (before behind : String) :
    ∃ above left right below, before = above ++ left ∧ behind = right ++ below ∧
    LineAt (before ++ behind) before.utf8ByteSize above left right below := by
  obtain ⟨above, left, rfl, hleft, starts⟩ := exists_line_start before
  obtain ⟨right, below, rfl, hright, ends⟩ := exists_line_end behind
  refine ⟨above, left, right, below, rfl, rfl, (String.append_assoc ..).symm, rfl, ?_, starts, ends⟩
  rw [String.toList_append, List.mem_append]
  exact fun newline => newline.elim hleft hright

/-- The newlines around the line are where the excerpt is cut. -/
theorem between_eq {source above left right below : String} {loc : Nat} (h : LineAt source loc above left right below) :
    between (above ++ left).toList (right ++ below).toList =
      ⟨"'" ++ (left ++ right) ++ "'", String.ofList (List.replicate (left.length + 1) ' ' ++ ['^'])⟩ := by
  have clear := h.unbroken
  rw [String.toList_append, List.mem_append, not_or] at clear
  have plain {cs : List Char} (hcs : '\n' ∉ cs) : ∀ c ∈ cs, decide (c ≠ '\n') = true :=
    fun c hc => decide_eq_true fun e => hcs (e ▸ hc)
  have before : ((above ++ left).toList.reverse.takeWhile (· ≠ '\n')).reverse = left.toList := by
    have stop : ∀ c ∈ above.toList.reverse.head?, ¬ decide (c ≠ '\n') = true := by
      rcases h.starts with rfl | ⟨t, rfl⟩
      · simp
      · simp
    rw [String.toList_append, List.reverse_append,
      (Token.span_eq (plain fun hm => clear.1 (List.mem_reverse.1 hm)) stop).1, List.reverse_reverse]
  have after : (right ++ below).toList.takeWhile (· ≠ '\n') = right.toList := by
    have stop : ∀ c ∈ below.toList.head?, ¬ decide (c ≠ '\n') = true := by
      rcases h.ends with rfl | ⟨t, rfl⟩
      · simp
      · simp
    rw [String.toList_append, (Token.span_eq (plain clear.2) stop).1]
  simp only [between, before, after, String.ofList_append, String.ofList_toList, String.length_toList]

theorem at?_eq_some_iff {source : String} {loc : Nat} {e : Excerpt} :
    at? source loc = some e ↔ e.Shows source (min loc source.utf8ByteSize) := by
  unfold at?
  constructor
  · intro h
    obtain ⟨⟨before, behind⟩, split, rfl⟩ := Option.map_eq_some_iff.1 h
    obtain ⟨rfl, size⟩ := splitAt?_eq_some_iff.1 split
    obtain ⟨above, left, right, below, rfl, rfl, line⟩ := exists_lineAt before behind
    exact ⟨above, left, right, below, size ▸ line, between_eq line⟩
  · rintro ⟨above, left, right, below, line, rfl⟩
    have cut : source = (above ++ left) ++ (right ++ below) := by rw [line.text, ← String.append_assoc]
    rw [splitAt?_eq_some_iff.2 ⟨cut, line.place⟩, ← between_eq line]
    rfl

theorem at?_eq_none_iff {source : String} {loc : Nat} :
    at? source loc = none ↔ loc < source.utf8ByteSize ∧ ¬ Boundary source loc := by
  have cut : at? source loc = none ↔ ¬ Boundary source (min loc source.utf8ByteSize) := by
    rw [at?, Option.map_eq_none_iff]
    constructor
    · rintro none ⟨before, behind, text, size⟩
      rw [splitAt?_eq_some_iff.2 ⟨text, size⟩] at none
      cases none
    · intro no
      cases split : splitAt? source (min loc source.utf8ByteSize) with
      | none => rfl
      | some parts => exact absurd ⟨parts.1, parts.2, splitAt?_eq_some_iff.1 split⟩ no
  rw [cut]
  by_cases inside : loc < source.utf8ByteSize
  · rw [Nat.min_eq_left (Nat.le_of_lt inside)]
    exact (and_iff_right inside).symm
  · rw [Nat.min_eq_right (Nat.le_of_not_lt inside)]
    exact iff_of_false (not_not_intro (boundary_end source)) fun h => inside h.1

end Excerpt

end Text

/-! ## What the front end reports -/

/-- A failure that is a diagnostic at an offset of a text, and shows the line there. -/
def Failure.Reports (source : String) (loc : Nat) (e : Failure) : Prop :=
  ∃ cause place, e = .at source loc cause ∧ e = .rejected (.located place cause) ∧ place.Shows source loc

theorem Failure.reports_located {source : String} {loc : Nat} {place : Text.Excerpt} (cause : SyntaxError)
    (boundary : Text.Boundary source loc) (shown : Text.Excerpt.at? source loc = some place) :
    (Failure.rejected (.located place cause)).Reports source loc := by
  have shows := Text.Excerpt.at?_eq_some_iff.1 shown
  rw [Nat.min_eq_left boundary.le] at shows
  exact ⟨cause, place, by rw [Failure.at, shown], rfl, shows⟩

/-- Scanning fails at a place of the text, and never without one. -/
theorem Token.reports_of_scan {source : String} {e : Failure} (h : scan source = .error e) :
    ∃ loc, e.Reports source loc := by
  obtain ⟨before, rest, offset, cause, place, reached, misfits, shown, rfl⟩ := scan_eq_error_iff.1 h
  obtain ⟨front, back, rfl, rfl⟩ := misfits.boundary
  have text : source = String.ofList (before ++ front) ++ String.ofList back := by
    rw [← String.ofList_append, List.append_assoc, ← reached.append, String.ofList_toList]
  have size : (String.ofList (before ++ front)).utf8ByteSize = byteLength before + byteLength front := by
    rw [utf8ByteSize_ofList, byteLength_append]
  exact ⟨_, Failure.reports_located cause ⟨_, _, text, size⟩ shown⟩

theorem Token.boundary_of_text? {source text : String} {t : Token} (h : t.text? source = some text) :
    Text.Boundary source t.loc := by
  obtain ⟨before, behind, rfl, size, -⟩ := Text.slice?_eq_some_iff.1 h
  exact ⟨before, text ++ behind, String.append_assoc, size⟩

/-- The tokens of a text have their own texts in it, and one of them stands at its end. -/
theorem Token.texts_of_scan {source : String} {tokens : List Token} (h : scan source = .ok tokens) :
    (∀ t ∈ tokens, ∃ text, t.text? source = some text) ∧ ∃ t ∈ tokens, t.loc = source.utf8ByteSize := by
  obtain ⟨words, said, -⟩ := words_of_scan h
  obtain ⟨words, rfl, -⟩ := (scan_eq_ok_iff.1 h).cuts source [] rfl rfl
  exact ⟨fun t => exists_text_of_contents said, _, List.mem_append_right _ (List.mem_singleton.2 rfl), rfl⟩

/-- Reading the tokens of a text fails at one of them, or for the stars of a type. -/
theorem Program.reports_of_ofTokens {source : String} {tokens : List Token} {e : Failure}
    (h : Token.scan source = .ok tokens) (failed : ofTokens source tokens = .error e) :
    (∃ t ∈ tokens, e.Reports source t.loc) ∨ e = .crashed ∧ Reader.Starry (tokens.map (Token.lexeme source)) := by
  obtain ⟨texts, last, hlast, end'⟩ := Token.texts_of_scan h
  have report {t : Token} {place : Text.Excerpt} (cause : SyntaxError) (ht : t ∈ tokens)
      (shown : Text.Excerpt.at? source t.loc = some place) :
      (Failure.rejected (.located place cause)).Reports source t.loc := by
    obtain ⟨text, htext⟩ := texts t ht
    exact Failure.reports_located cause (Token.boundary_of_text? htext) shown
  cases refuses_of_ofTokens texts failed with
  | starry stars => exact .inr ⟨rfl, stars⟩
  | located cause spot shown =>
    rcases spot with rfl | ⟨l, hl, rfl⟩
    · exact .inl ⟨last, hlast, report cause hlast (end' ▸ shown)⟩
    · obtain ⟨t, ht, rfl⟩ := List.mem_map.1 hl
      exact .inl ⟨t, ht, report cause ht shown⟩

/-- Diagnostics point at the right place. A report at an offset inside a character crashes, and no other does;
    otherwise it shows the line around the offset, taken back to the end of the text, with a caret under it. All
    that scanning refuses, and all that reading its tokens refuses, is reported at an offset that has a line; only
    a type with too many stars crashes. -/
theorem diagnostics_point (source : String) :
    (∀ loc cause, (Failure.at source loc cause = .crashed ↔ loc < source.utf8ByteSize ∧ ¬ Text.Boundary source loc) ∧
      ∀ place, Failure.at source loc cause = .rejected (.located place cause) ↔
        place.Shows source (min loc source.utf8ByteSize)) ∧
    (∀ e, Token.scan source = .error e → ∃ loc, e.Reports source loc) ∧
    ∀ tokens, Token.scan source = .ok tokens → (∀ t ∈ tokens, Text.Boundary source t.loc) ∧
      ∀ e, Program.ofTokens source tokens = .error e →
        (∃ t ∈ tokens, e.Reports source t.loc) ∨ e = .crashed ∧ Reader.Starry (tokens.map (Token.lexeme source)) := by
  refine ⟨fun loc cause => ⟨?_, fun place => ?_⟩, fun e => Token.reports_of_scan,
    fun tokens scanned => ⟨fun t ht => ?_, ?_⟩⟩
  · rw [← Text.Excerpt.at?_eq_none_iff, Failure.at]
    cases Text.Excerpt.at? source loc <;> simp
  · rw [← Text.Excerpt.at?_eq_some_iff, Failure.at]
    cases Text.Excerpt.at? source loc <;> simp
  · obtain ⟨text, htext⟩ := (Token.texts_of_scan scanned).1 t ht
    exact Token.boundary_of_text? htext
  · exact fun e => Program.reports_of_ofTokens scanned

/-- Below another line and behind a character of two bytes: a text that is not scanned, and one that is not read. -/
theorem diagnostics_point_behind_accent :
    (∃ e loc, Token.scan "int\n/*é*/ @" = .error e ∧ e.Reports "int\n/*é*/ @" loc) ∧
      ∃ tokens e, Token.scan "int\n/*é*/ (" = .ok tokens ∧ Program.ofTokens "int\n/*é*/ (" tokens = .error e ∧
        e ≠ .crashed ∧ (∀ t ∈ tokens, Text.Boundary "int\n/*é*/ (" t.loc) ∧
        ∃ t ∈ tokens, e.Reports "int\n/*é*/ (" t.loc := by
  constructor
  · have failed : Token.scan "int\n/*é*/ @" =
        .error (.rejected (.located ⟨"'/*é*/ @'", "       ^"⟩ (.invalidToken '@'))) := by
      decide +kernel
    obtain ⟨loc, reports⟩ := (diagnostics_point "int\n/*é*/ @").2.1 _ failed
    exact ⟨_, loc, failed, reports⟩
  · have scanned : Token.scan "int\n/*é*/ (" =
        .ok [⟨.keyword, 0, 3⟩, ⟨.mark, 11, 1⟩, ⟨.eof, 12, 0⟩] := by decide +kernel
    have failed : Program.ofTokens "int\n/*é*/ (" [⟨.keyword, 0, 3⟩, ⟨.mark, 11, 1⟩, ⟨.eof, 12, 0⟩] =
        .error (.rejected (.located ⟨"'/*é*/ ('", "       ^"⟩ (.expectedIdentifier "("))) := by rfl
    obtain ⟨boundaries, reports⟩ := (diagnostics_point "int\n/*é*/ (").2.2 _ scanned
    exact ⟨_, _, scanned, failed, by simp, boundaries, (reports _ failed).resolve_right (by simp)⟩

end DotCom
