/-
  DotCom.Proofs.Totality — how compilation of a text can end, whatever the options are. Reading crashes only on
  the stars of a type, and there are too few of them in a text below 4 GiB; lowering never crashes. What is left
  is the layout: the sum of load base and capacity is reckoned in 64 bits, and crashes where it leaves them.

  - `Token.Tiles.length_le`: a text has at most as many tokens as bytes, and one for its end.
  - `Program.parse_ne_crashed`: short texts are read or refused.
  - `compile_outcomes`: images, crashes and refusals of the layout.
-/

import DotCom.Proofs.Diagnostics
import DotCom.Proofs.Extension
import DotCom.Proofs.Rendering

namespace DotCom

/-! ## Reading -/

theorem Token.Tiles.length_le {off : Nat} {cs : List Char} {tokens : List Token} (h : Tiles off cs tokens) :
    tokens.length ≤ byteLength cs + 1 := by
  induction h with
  | nil => exact Nat.le_refl _
  | gap _ _ ih =>
    rw [byteLength_append]
    omega
  | @token _ _ taken _ _ applies _ ih =>
    have taken_pos : 1 ≤ byteLength taken := by
      obtain ⟨c, cs, rfl⟩ := List.exists_cons_of_ne_nil applies.ne_nil
      rw [byteLength_cons]
      exact Nat.le_trans c.utf8Size_pos (Nat.le_add_right _ _)
    rw [List.length_cons, byteLength_append]
    omega

/-- A text of less than 4 GiB has no more stars in a row than a type can have. -/
theorem Token.not_starry_of_scan {source : String} {tokens : List Token} (short : source.utf8ByteSize < UInt32.size)
    (h : scan source = .ok tokens) : ¬ Reader.Starry (tokens.map (Token.lexeme source)) := by
  rintro ⟨stars, part, count, star⟩
  have few := (scan_eq_ok_iff.1 h).length_le
  rw [← utf8ByteSize_ofList, String.ofList_toList] at few
  -- So many stars would be all the tokens, but the last token is the end of the text.
  have all : stars = tokens.map (Token.lexeme source) := part.eq_of_length_le (by rw [List.length_map]; omega)
  obtain ⟨words, rfl, -⟩ := (scan_eq_ok_iff.1 h).cuts source [] rfl rfl
  have last := star (Token.lexeme source ⟨.eof, source.utf8ByteSize, 0⟩) (by simp [all])
  cases last.1

namespace Program

theorem parse_ne_crashed {source : String} (short : source.utf8ByteSize < UInt32.size) :
    parse source ≠ .error .crashed := by
  intro crashed
  have reported {loc : Nat} : ¬ Failure.crashed.Reports source loc := by
    rintro ⟨cause, place, -, located, -⟩
    cases located
  rw [parse] at crashed
  cases scanned : Token.scan source with
  | error e =>
    rw [scanned] at crashed
    cases crashed
    obtain ⟨loc, reports⟩ := Token.reports_of_scan scanned
    exact reported reports
  | ok tokens =>
    rw [scanned] at crashed
    rcases reports_of_ofTokens scanned crashed with ⟨t, -, reports⟩ | ⟨-, starry⟩
    · exact reported reports
    · exact Token.not_starry_of_scan short scanned starry

/-! ## Programs -/

variable {p : Program} {options : Options}

theorem create_eq_crashed (wide : Image.maxSize < options.loadBase.toNat + options.capacity) :
    Generator.create options = .error .crashed := by
  rw [Generator.create, Image.create, if_pos wide]
  rfl

theorem create_eq_invalidLayout (big : ¬ options.loadBase.toNat + options.capacity ≤ segmentSize)
    (narrow : ¬ Image.maxSize < options.loadBase.toNat + options.capacity) :
    Generator.create options = .error (.rejected (.invalidLayout options.loadBase options.capacity)) := by
  rw [Generator.create, Image.create, if_neg narrow, if_pos (Nat.lt_of_not_le big)]
  rfl

theorem compile_eq_crashed_iff :
    p.compile options = .error .crashed ↔ Image.maxSize < options.loadBase.toNat + options.capacity := by
  by_cases layout : options.loadBase.toNat + options.capacity ≤ segmentSize
  · have narrow : ¬ Image.maxSize < options.loadBase.toNat + options.capacity := by
      rw [segmentSize] at layout
      rw [Image.maxSize]
      omega
    exact iff_of_false (compile_ne_crashed layout) narrow
  · rw [compile_eq_bind]
    by_cases wide : Image.maxSize < options.loadBase.toNat + options.capacity
    · rw [create_eq_crashed wide]
      exact iff_of_true rfl wide
    · rw [create_eq_invalidLayout layout wide]
      exact iff_of_false (fun h => by cases h) wide

theorem compile_eq_invalidLayout_iff (h : p.Expressible) {base : UInt16} {capacity : Nat} :
    p.compile options = .error (.rejected (.invalidLayout base capacity)) ↔
      base = options.loadBase ∧ capacity = options.capacity ∧ segmentSize < options.loadBase.toNat + options.capacity ∧
        options.loadBase.toNat + options.capacity ≤ Image.maxSize := by
  by_cases layout : options.loadBase.toNat + options.capacity ≤ segmentSize
  · refine iff_of_false (fun refused => ?_) fun h => Nat.not_lt.2 layout h.2.2.1
    obtain ⟨g, run⟩ := lower_of_compile_error refused layout
    exact native_of_lower h run
  · rw [compile_eq_bind]
    by_cases wide : Image.maxSize < options.loadBase.toNat + options.capacity
    · rw [create_eq_crashed wide]
      exact iff_of_false (fun h => by cases h) fun h => Nat.not_le.2 wide h.2.2.2
    · rw [create_eq_invalidLayout layout wide]
      constructor
      · intro refused
        cases refused
        exact ⟨rfl, rfl, Nat.lt_of_not_le layout, Nat.le_of_not_lt wide⟩
      · rintro ⟨rfl, rfl, -⟩
        rfl

/-- An image ends inside its capacity and inside the segment. -/
theorem size_le_of_compile {image : Array UInt8} (h : p.compile options = .ok image) :
    image.size ≤ min options.capacity (segmentSize - options.loadBase.toNat) := by
  have layout := layout_of_compile h
  obtain ⟨-, room, code⟩ := of_compile h
  have size : image.size = p.size := by rw [← Array.length_toList, code, length_code]
  omega

end Program

/-! ## Texts -/

theorem compile_eq_error {source : String} {e : Failure} (h : Program.parse source = .error e) (options : Options) :
    compile source options = .error e := by
  rw [compile, compileLogged, h]

theorem compile_eq_compile {source : String} {p : Program} (h : Program.parse source = .ok p) (options : Options) :
    compile source options = p.compile options := by
  rw [compile, compileLogged, h]
  rfl

/-- How compilation of a text below 4 GiB can end. An image has at most the bytes of its capacity and of the
    segment behind the load base. The one crash is that of a text that is read, where the sum of load base and
    capacity leaves 64 bits; and the layout is refused for a text that is read, where the sum stays in 64 bits but
    leaves the segment. -/
theorem compile_outcomes (source : String) (options : Options) (short : source.utf8ByteSize < UInt32.size) :
    (∀ image, compile source options = .ok image →
      image.size ≤ min options.capacity (segmentSize - options.loadBase.toNat)) ∧
    (compile source options = .error .crashed ↔
      (∃ p, Program.parse source = .ok p) ∧ Image.maxSize < options.loadBase.toNat + options.capacity) ∧
    ∀ base capacity, compile source options = .error (.rejected (.invalidLayout base capacity)) ↔
      (∃ p, Program.parse source = .ok p) ∧ base = options.loadBase ∧ capacity = options.capacity ∧
        segmentSize < options.loadBase.toNat + options.capacity ∧
        options.loadBase.toNat + options.capacity ≤ Image.maxSize := by
  cases parsed : Program.parse source with
  | error e =>
    have unread : ¬ ∃ p, (Except.error e : Except Failure Program) = .ok p := by
      rintro ⟨p, h⟩
      cases h
    rw [compile_eq_error parsed options]
    refine ⟨?_, iff_of_false ?_ fun h => unread h.1, fun base capacity => iff_of_false ?_ fun h => unread h.1⟩
    · intro image h
      cases h
    · intro h
      cases h
      exact Program.parse_ne_crashed short parsed
    · intro h
      cases h
      rcases Program.diagnoses_parse parsed with h | ⟨_, _, h⟩ <;> cases h
  | ok p =>
    rw [compile_eq_compile parsed options]
    refine ⟨fun image => Program.size_le_of_compile, ?_, fun base capacity => ?_⟩
    · rw [Program.compile_eq_crashed_iff]
      exact (and_iff_right ⟨p, rfl⟩).symm
    · rw [Program.compile_eq_invalidLayout_iff (Program.expressible_of_parse parsed)]
      exact (and_iff_right ⟨p, rfl⟩).symm

/-- An image that fills its capacity and the segment to the end, and the same with a capacity of one byte more. -/
theorem compile_outcomes_at_segment_end :
    (∃ image, compile "int main() \x7b\x7d" ⟨0xffef, 17, "main"⟩ = .ok image ∧ image.size ≤ 17) ∧
      compile "int main() \x7b\x7d" ⟨0xffef, 18, "main"⟩ = .error (.rejected (.invalidLayout 0xffef 18)) := by
  have short : "int main() \x7b\x7d".utf8ByteSize < UInt32.size := by decide +kernel
  have compiled : compile "int main() \x7b\x7d" ⟨0xffef, 17, "main"⟩ =
      .ok #[184, 248, 255, 255, 208, 180, 76, 205, 33, 85, 137, 229, 131, 196, 0, 93, 195] := by decide +kernel
  have parsed : ∃ p, Program.parse "int main() \x7b\x7d" = .ok p := by
    cases h : Program.parse "int main() \x7b\x7d" with
    | error e => cases (compile_eq_error h _).symm.trans compiled
    | ok p => exact ⟨p, rfl⟩
  constructor
  · exact ⟨_, compiled, (compile_outcomes _ ⟨0xffef, 17, "main"⟩ short).1 _ compiled⟩
  · exact ((compile_outcomes _ ⟨0xffef, 18, "main"⟩ short).2.2 _ _).2 ⟨parsed, by decide⟩

/-- The widest capacity of 64 bits: the layout is not refused, but the sum with the load base crashes. -/
theorem compile_crashes_at_widest_capacity :
    "int main() \x7b return 0; \x7d".utf8ByteSize < UInt32.size ∧
      segmentSize < ({ capacity := Image.maxSize : Options }).loadBase.toNat + Image.maxSize ∧
      compile "int main() \x7b return 0; \x7d" { capacity := Image.maxSize } = .error .crashed := by
  decide +kernel

end DotCom
