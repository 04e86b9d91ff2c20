/-
  DotCom.Text.Slice — cutting a text at byte offsets. Every position in a source text is a
  number of UTF-8 bytes from its start; a cut is possible only between two characters.

  - `slice?_eq_some_iff`: a slice is the middle of a division of the text into three parts
    with the given offsets as its seams.
  - `splitAt?_eq_some_iff`: the same for a division into two.
-/

namespace DotCom.Text

/-- The two parts of a text around a byte offset, if the offset lies between two characters. -/
def splitAt? (s : String) (off : Nat) : Option (String × String) :=
  if h : String.Pos.Raw.IsValid s ⟨off⟩ then
    some ((s.sliceTo ⟨⟨off⟩, h⟩).copy, (s.sliceFrom ⟨⟨off⟩, h⟩).copy)
  else none

/-- The text between two byte offsets, if both lie between characters and are in order. -/
def slice? (s : String) (lo hi : Nat) : Option String :=
  if h : lo ≤ hi ∧ String.Pos.Raw.IsValid s ⟨lo⟩ ∧ String.Pos.Raw.IsValid s ⟨hi⟩ then
    some (s.extract ⟨⟨lo⟩, h.2.1⟩ ⟨⟨hi⟩, h.2.2⟩)
  else none

theorem extract_eq_iff {s t : String} {p q : s.Pos} (h : p ≤ q) :
    s.extract p q = t ↔ ∃ a b, s = a ++ t ++ b ∧ p.offset = a.rawEndPos ∧ q.offset = (a ++ t).rawEndPos := by
  rw [String.extract_eq_copy_slice p q h]
  constructor
  · intro e
    obtain ⟨a, b, h₁, h₂⟩ := String.copy_slice_eq_iff_splits.1 ⟨h, e⟩
    exact ⟨a, b, h₂.eq_append, h₁.offset_eq_rawEndPos, h₂.offset_eq_rawEndPos⟩
  · rintro ⟨a, b, hs, hp, hq⟩
    obtain ⟨_, e⟩ := String.copy_slice_eq_iff_splits.2
      ⟨a, b, ⟨by rw [hs, String.append_assoc], hp⟩, ⟨hs, hq⟩⟩
    exact e

theorem slice?_eq_some_iff {s t : String} {lo hi : Nat} :
    slice? s lo hi = some t ↔
      ∃ a b, s = a ++ t ++ b ∧ a.utf8ByteSize = lo ∧ (a ++ t).utf8ByteSize = hi := by
  unfold slice?
  split
  · next h =>
    rw [Option.some.injEq, extract_eq_iff (p := ⟨⟨lo⟩, h.2.1⟩) (q := ⟨⟨hi⟩, h.2.2⟩) h.1]
    simp only [String.rawEndPos, String.Pos.Raw.mk.injEq, eq_comm]
  · next h =>
    simp only [reduceCtorEq, false_iff]
    rintro ⟨a, b, rfl, rfl, rfl⟩
    refine h ⟨?_, ?_, ?_⟩
    · simp
    · exact String.Pos.Raw.isValid_iff_exists_append.2 ⟨a, t ++ b, String.append_assoc .., rfl⟩
    · exact String.Pos.Raw.isValid_iff_exists_append.2 ⟨a ++ t, b, rfl, rfl⟩

theorem splitAt?_eq_some_iff {s a b : String} {off : Nat} :
    splitAt? s off = some (a, b) ↔ s = a ++ b ∧ a.utf8ByteSize = off := by
  unfold splitAt?
  split
  · next h =>
    simp only [Option.some.injEq, Prod.mk.injEq]
    constructor
    · rintro ⟨rfl, rfl⟩
      have hp := (⟨⟨off⟩, h⟩ : s.Pos).splits
      exact ⟨hp.eq_append, (congrArg String.Pos.Raw.byteIdx hp.offset_eq_rawEndPos).symm⟩
    · rintro ⟨rfl, rfl⟩
      have hp : (⟨⟨a.utf8ByteSize⟩, h⟩ : (a ++ b).Pos).Splits a b := ⟨rfl, rfl⟩
      exact ⟨hp.copy_sliceTo_eq, hp.copy_sliceFrom_eq⟩
  · next h =>
    simp only [reduceCtorEq, false_iff]
    rintro ⟨rfl, rfl⟩
    exact h (String.Pos.Raw.isValid_iff_exists_append.2 ⟨a, b, rfl, rfl⟩)

end DotCom.Text
