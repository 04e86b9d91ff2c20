/-
  DotCom.Proofs.Gaps — the layout of a source text does not matter. A text is laid out anew when the
  texts of its tokens are written with gaps around them: blanks and comments, a blank first.

  - `Token.munch_stands`: the text of a token is taken as the same token wherever a blank follows it.
  - `Token.LaidOut.scan`: so the text laid out anew has the same tokens.
  - `compile_laid_out`: and it compiles to the same image, or fails for the same cause.
-/

import DotCom.Compile
import DotCom.Proofs.Parsing.Places
import DotCom.Proofs.Spelling

namespace DotCom

namespace Token

/-! ## Gaps -/

/-- A blank, a block comment or a line comment with the newline that ends it. -/
inductive Filler : List Char → Prop
  | blank {b : Char} : isBlank b → Filler [b]
  | block {body : List Char} : ¬ ['*', '/'] <:+: body → Filler ('/' :: '*' :: (body ++ ['*', '/']))
  | line {body : List Char} : '\n' ∉ body → Filler ('/' :: '/' :: (body ++ ['\n']))

/-- A blank and any blanks and comments behind it. -/
inductive Gap : List Char → Prop
  | blank {b : Char} : isBlank b → Gap [b]
  | snoc {gap filler : List Char} : Gap gap → Filler filler → Gap (gap ++ filler)

/-- Texts written in order, with a gap before the first, between any two and after the last. -/
inductive LaidOut : List String → List Char → Prop
  | nil {gap : List Char} : Gap gap → LaidOut [] gap
  | cons {gap rest : List Char} {text : String} {texts : List String} :
      Gap gap → LaidOut texts rest → LaidOut (text :: texts) (gap ++ text.toList ++ rest)

theorem Gap.starts {gap : List Char} (h : Gap gap) : ∃ b cs, isBlank b ∧ gap = b :: cs := by
  induction h with
  | blank hb => exact ⟨_, [], hb, rfl⟩
  | @snoc gap filler _ _ ih =>
    obtain ⟨b, cs, hb, rfl⟩ := ih
    exact ⟨b, cs ++ filler, hb, rfl⟩

theorem LaidOut.starts {texts : List String} {cs : List Char} (h : LaidOut texts cs) :
    ∃ b rest, isBlank b ∧ cs = b :: rest := by
  cases h with
  | nil hg => exact hg.starts
  | @cons gap rest text texts hg _ =>
    obtain ⟨b, ds, hb, rfl⟩ := hg.starts
    exact ⟨b, ds ++ text.toList ++ rest, hb, rfl⟩

/-- A block comment ends at the first of its ends. -/
theorem closeComment_body {body : List Char} (h : ¬ ['*', '/'] <:+: body) (len : Nat) (rest : List Char) :
    closeComment len (body ++ '*' :: '/' :: rest) = .ok ⟨none, len + byteLength body + 2, rest⟩ := by
  induction body generalizing len with
  | nil => rfl
  | cons c body ih =>
    have inner : ¬ ['*', '/'] <:+: body := fun hi => h (List.infix_cons hi)
    have early : ∀ cs, c = '*' → body ++ '*' :: '/' :: rest = '/' :: cs → False := by
      rintro cs rfl hcs
      cases body with
      | nil => cases hcs
      | cons d body =>
        cases hcs
        exact h ⟨[], body, rfl⟩
    rw [List.cons_append, closeComment.eq_2 _ _ _ early, ih inner, byteLength_cons, Nat.add_assoc len]

theorem munch_line {body : List Char} (h : '\n' ∉ body) (rest : List Char) :
    munch '/' ('/' :: (body ++ '\n' :: rest)) = .ok ⟨none, 1 + byteLength ('/' :: body), '\n' :: rest⟩ := by
  have plain : ∀ c ∈ '/' :: body, decide (c ≠ '\n') = true := by
    intro c hc
    rcases List.mem_cons.1 hc with rfl | hc
    · decide
    · exact decide_eq_true fun e => h (e ▸ hc)
  have taken : ('/' :: body ++ '\n' :: rest).takeWhile (· ≠ '\n') = '/' :: body := by
    rw [List.takeWhile_append_of_pos plain]
    simp
  have left : ('/' :: body ++ '\n' :: rest).dropWhile (· ≠ '\n') = '\n' :: rest := by
    rw [List.dropWhile_append_of_pos plain]
    simp
  rw [← List.cons_append, munch, taken, left]
  rfl

theorem Filler.skip {filler : List Char} (h : Filler filler) (off : Nat) (acc : Array Token) (rest : List Char) :
    scanFrom off acc (filler ++ rest) = scanFrom (off + byteLength filler) acc rest := by
  have blank {b : Char} (hb : isBlank b) (off : Nat) : scanFrom off acc (b :: rest) = scanFrom (off + 1) acc rest :=
    scanFrom_gap (p := ⟨none, 1, rest⟩) (if_pos hb) rfl
  cases h with
  | blank hb => simpa [utf8Size_of_isBlank hb] using blank hb off
  | @block body hbody =>
    have taken : munch '/' ('*' :: (body ++ '*' :: '/' :: rest)) = .ok ⟨none, 2 + byteLength body + 2, rest⟩ :=
      closeComment_body hbody 2 rest
    have length : byteLength ('/' :: '*' :: (body ++ ['*', '/'])) = 2 + byteLength body + 2 := by
      simp [show '/'.utf8Size = 1 from rfl, show '*'.utf8Size = 1 from rfl]
      omega
    have text : '/' :: '*' :: (body ++ ['*', '/']) ++ rest = '/' :: '*' :: (body ++ '*' :: '/' :: rest) := by simp
    rw [text, scanFrom_gap taken rfl, length]
  | @line body hbody =>
    have length : byteLength ('/' :: '/' :: (body ++ ['\n'])) = 1 + byteLength ('/' :: body) + 1 := by
      simp [show '/'.utf8Size = 1 from rfl, show '\n'.utf8Size = 1 from rfl]
      omega
    have text : '/' :: '/' :: (body ++ ['\n']) ++ rest = '/' :: '/' :: (body ++ '\n' :: rest) := by simp
    rw [text, scanFrom_gap (munch_line hbody rest) rfl, blank (by decide), length, Nat.add_assoc]

theorem Gap.skip {gap : List Char} (h : Gap gap) (off : Nat) (acc : Array Token) (rest : List Char) :
    scanFrom off acc (gap ++ rest) = scanFrom (off + byteLength gap) acc rest := by
  induction h generalizing rest with
  | blank hb => exact (Filler.blank hb).skip off acc rest
  | snoc _ hf ih => rw [List.append_assoc, ih, hf.skip, byteLength_append, Nat.add_assoc]

/-! ## Tokens on their own -/

/-- No token of several characters goes on with a blank. -/
theorem blank_ends {b : Char} (h : isBlank b) :
    b.isDigit = false ∧ isWordChar b = false ∧ b ≠ '/' ∧ b ≠ '*' ∧ ∀ c, (c, b) ∉ doubleMarks := by
  have apart : b ∉ doubleMarks.map Prod.snd ∧ b.isDigit = false ∧ isWordChar b = false ∧ b ≠ '/' ∧ b ≠ '*' := by
    simp only [isBlank, Bool.or_eq_true, beq_iff_eq] at h
    rcases h with (((rfl | rfl) | rfl) | rfl) | rfl <;> decide
  obtain ⟨second, digit, word, slash, star⟩ := apart
  exact ⟨digit, word, slash, star, fun c hm => second (List.mem_map_of_mem hm)⟩

theorem span_ends {p : Char → Bool} {b : Char} (hb : p b = false) (cs rest : List Char) :
    (cs.takeWhile p ++ b :: rest).takeWhile p = cs.takeWhile p ∧
    (cs.takeWhile p ++ b :: rest).dropWhile p = b :: rest := by
  have all : ∀ c ∈ cs.takeWhile p, p c := List.all_eq_true.1 List.all_takeWhile
  rw [List.takeWhile_append_of_pos all, List.dropWhile_append_of_pos all]
  simp [hb]

/-- A string literal is closed before what follows it is looked at. -/
theorem closeString_rest {len : Nat} {acc cs : List Char} {p : Piece} (h : closeString len acc cs = .ok p) :
    ∃ taken, cs = taken ++ p.rest ∧ ∀ rest, closeString len acc (taken ++ rest) = .ok { p with rest } := by
  fun_induction closeString len acc cs with
  | case1 len acc cs =>
    cases h
    exact ⟨['"'], rfl, fun _ => rfl⟩
  | case4 len acc e cs c he ih =>
    obtain ⟨taken, rfl, ht⟩ := ih h
    refine ⟨'\\' :: e :: taken, rfl, fun rest => ?_⟩
    rw [List.cons_append, List.cons_append, closeString, he]
    exact ht rest
  | case6 len acc c cs quote newline last inner ih =>
    have backslash : c ≠ '\\' := by
      intro e
      rcases cs with _ | ⟨d, cs⟩
      · exact last e rfl
      · exact inner d cs e rfl
    obtain ⟨taken, rfl, ht⟩ := ih h
    refine ⟨c :: taken, rfl, fun rest => ?_⟩
    rw [List.cons_append, closeString_plain quote newline backslash]
    exact ht rest
  | case2 | case3 | case5 | case7 => cases h

theorem takeNumber_rest {c : Char} {cs : List Char} {p : Piece} (h : takeNumber c cs = .ok p) :
    cs = cs.takeWhile Char.isDigit ++ p.rest ∧
      ∀ b rest, isBlank b → takeNumber c (cs.takeWhile Char.isDigit ++ b :: rest) =
        .ok { p with rest := b :: rest } := by
  unfold takeNumber at h
  dsimp only at h
  split at h
  · cases h
  split at h
  · cases h
  cases h
  refine ⟨by simp, fun b rest hb => ?_⟩
  obtain ⟨taken, left⟩ := span_ends (blank_ends hb).1 cs rest
  rw [takeNumber, taken, left, if_neg ‹_›, if_neg ‹_›]

theorem takeMark_rest {c : Char} {cs : List Char} {p : Piece} (h : takeMark c cs = .ok p) :
    c ∈ singleMarks ++ doubleMarks.map Prod.fst ∧ ∃ taken, cs = taken ++ p.rest ∧ (c = '/' → taken = []) ∧
      ∀ b rest, isBlank b → takeMark c (taken ++ b :: rest) = .ok { p with rest := b :: rest } := by
  have alone (hc : singleMarks.contains c) (b : Char) (rest : List Char) (hb : isBlank b) :
      takeMark c (b :: rest) = .ok ⟨some .mark, 1, b :: rest⟩ := by
    obtain ⟨-, -, -, -, ends⟩ := blank_ends hb
    simp [takeMark, ends c, List.contains_iff_mem.1 hc]
  have single (hc : singleMarks.contains c) : c ∈ singleMarks ++ doubleMarks.map Prod.fst :=
    List.mem_append_left _ (List.contains_iff_mem.1 hc)
  unfold takeMark at h
  split at h
  · rename_i d cs
    split at h
    · rename_i hm
      cases h
      refine ⟨List.mem_append_right _ (List.mem_map_of_mem (List.contains_iff_mem.1 hm)), [d], rfl, ?_,
        fun b rest _ => if_pos hm⟩
      rintro rfl
      have none : doubleMarks.all (·.1 != '/') = true := by decide
      simpa using List.all_eq_true.1 none _ (List.contains_iff_mem.1 hm)
    split at h
    · cases h
      exact ⟨single ‹_›, [], rfl, fun _ => rfl, alone ‹_›⟩
    · cases h
  · split at h
    · cases h
      exact ⟨single ‹_›, [], rfl, fun _ => rfl, alone ‹_›⟩
    · cases h

/-- A token is taken off a text without regard to what follows it, if that is a blank. -/
theorem munch_rest {c : Char} {cs : List Char} {p : Piece} (h : munch c cs = .ok p) (ht : p.kind? ≠ none) :
    ∃ taken, cs = taken ++ p.rest ∧
      ∀ b rest, isBlank b → munch c (taken ++ b :: rest) = .ok { p with rest := b :: rest } := by
  unfold munch at h
  split at h
  · cases h
    exact absurd rfl ht
  split at h
  · cases h
    exact absurd rfl ht
  split at h
  · obtain ⟨-, -, -, hk⟩ := closeComment_cuts h
    exact absurd hk ht
  split at h
  · rename_i digit
    obtain ⟨hcs, numbered⟩ := takeNumber_rest h
    refine ⟨_, hcs, fun b rest hb => ?_⟩
    rw [munch_digit digit, numbered b rest hb]
  split at h
  · rename_i word
    cases h
    refine ⟨cs.takeWhile isWordChar, by simp [takeWord], fun b rest hb => ?_⟩
    obtain ⟨taken, left⟩ := span_ends (blank_ends hb).2.1 cs rest
    rw [munch_wordStart word, takeWord, taken, left]
    rfl
  split at h
  · rename_i quote
    obtain rfl := beq_iff_eq.1 quote
    obtain ⟨taken, hcs, closed⟩ := closeString_rest h
    exact ⟨taken, hcs, fun b rest _ => closed (b :: rest)⟩
  · obtain ⟨hc, taken, hcs, lone, marked⟩ := takeMark_rest h
    refine ⟨taken, hcs, fun b rest hb => ?_⟩
    rw [munch_mark hc, marked b rest hb]
    -- A slash is a mark of one character, and the blank behind it opens no comment.
    intro hslash
    obtain ⟨-, -, slash, star, -⟩ := blank_ends hb
    simp [lone hslash, slash, star]

/-- A text is one token of a kind wherever a blank follows it. -/
def Stands (k : Kind) (text : String) : Prop :=
  ∀ b rest, isBlank b → ∃ c cs, text.toList = c :: cs ∧
    munch c (cs ++ b :: rest) = .ok ⟨some k, byteLength text.toList, b :: rest⟩

theorem munch_stands {c : Char} {cs : List Char} {p : Piece} {k : Kind} (h : munch c cs = .ok p)
    (hk : p.kind? = some k) :
    ∃ text : String, c :: cs = text.toList ++ p.rest ∧ p.len = byteLength text.toList ∧ Stands k text := by
  obtain ⟨taken, rfl, after⟩ := munch_rest h (by simp [hk])
  obtain ⟨taken', ht, hl, -⟩ := munch_cuts h
  obtain rfl : c :: taken = taken' := List.append_cancel_right (by simpa using ht)
  refine ⟨String.ofList (c :: taken), by simp, by simpa using hl, fun b rest hb => ⟨c, taken, by simp, ?_⟩⟩
  rw [after b rest hb]
  simp [hk, hl]

/-! ## Scanning -/

/-- What a token says: its kind, with the value or the contents it carries, and its text. -/
def content (source : String) (t : Token) : Kind × Option String := (t.kind, t.text? source)

/-- What the tokens of a text say, the last of them being its end. -/
def contents (words : List (Kind × String)) : List (Kind × Option String) :=
  words.map (fun w => (w.1, some w.2)) ++ [(.eof, some "")]

theorem contents_cons (w : Kind × String) (words : List (Kind × String)) :
    contents (w :: words) = (w.1, some w.2) :: contents words := rfl

theorem contents_inj {words words' : List (Kind × String)} (h : contents words = contents words') : words = words' := by
  refine List.map_injective_iff.2 (fun v w e => ?_) (List.append_cancel_right h)
  obtain ⟨kind, text⟩ := Prod.mk.inj e
  exact Prod.ext kind (Option.some.inj text)

theorem content_of_toList {source text : String} {before rest : List Char}
    (h : source.toList = before ++ text.toList ++ rest)
    (k : Kind) : content source ⟨k, byteLength before, byteLength text.toList⟩ = (k, some text) := by
  rw [content, text?_of_toList h, String.ofList_toList]

theorem contents_end {source : String} {before : List Char} (h : source.toList = before ++ []) :
    [content source ⟨.eof, byteLength before, 0⟩] = contents [] :=
  congrArg (fun c => [c]) (@content_of_toList source "" before [] (by simpa using h) .eof)

/-- The tokens of a scanned text stand on their own. -/
theorem words_of_scanFrom {off : Nat} {acc out : Array Token} {cs : List Char} (h : scanFrom off acc cs = .ok out)
    (source : String) (before : List Char) (hs : source.toList = before ++ cs) (ho : off = byteLength before) :
    ∃ words tokens, out = acc ++ tokens ∧ tokens.toList.map (content source) = contents words ∧
      ∀ w ∈ words, Stands w.1 w.2 := by
  fun_induction scanFrom off acc cs generalizing before with
  | case1 off acc =>
    cases h
    subst ho
    exact ⟨[], #[_], Array.push_eq_append .., contents_end hs, by simp⟩
  | case2 => cases h
  | case3 off acc c cs p hm _ ih =>
    cases hk : p.kind? with
    | none =>
      simp only [hk] at h ih
      obtain ⟨taken, ht, hl, -⟩ := munch_cuts hm
      exact ih h (before ++ taken) (by rw [hs, ht, List.append_assoc]) (by rw [ho, hl, byteLength_append])
    | some k =>
      simp only [hk] at h ih
      obtain ⟨text, ht, hl, hstands⟩ := munch_stands hm hk
      rw [ht, ← List.append_assoc] at hs
      obtain ⟨words, tokens, hout, hwords, hall⟩ := ih h (before ++ text.toList) hs (by rw [ho, hl, byteLength_append])
      refine ⟨(k, text) :: words, #[⟨k, off, p.len⟩] ++ tokens, ?_, ?_, List.forall_mem_cons.2 ⟨hstands, hall⟩⟩
      · rw [hout, Array.push_eq_append, Array.append_assoc]
      · rw [Array.toList_append, List.map_append, hwords, contents_cons, ho, hl]
        exact congrArg (fun c => c :: contents words) (content_of_toList hs k)

/-- Tokens that stand on their own are scanned with any gaps around them. -/
theorem LaidOut.scanFrom {words : List (Kind × String)} {cs : List Char} (h : LaidOut (words.map Prod.snd) cs)
    (hw : ∀ w ∈ words, Stands w.1 w.2) (source : String) (before : List Char) (acc : Array Token)
    (hs : source.toList = before ++ cs) :
    ∃ tokens, Token.scanFrom (byteLength before) acc cs = .ok (acc ++ tokens) ∧
      tokens.toList.map (content source) = contents words := by
  induction words generalizing cs before acc with
  | nil =>
    cases h with
    | nil hg =>
      rw [← List.append_nil cs] at hs ⊢
      rw [hg.skip, ← byteLength_append, Token.scanFrom, Array.push_eq_append]
      exact ⟨#[_], rfl, contents_end (by rw [hs, List.append_assoc])⟩
  | cons w words ih =>
    obtain ⟨k, text⟩ := w
    obtain ⟨hstands, hall⟩ := List.forall_mem_cons.1 hw
    cases h with
    | @cons gap rest _ _ hg hrest =>
      obtain ⟨b, rest, hb, rfl⟩ := hrest.starts
      obtain ⟨c, cs, htext, hm⟩ := hstands b rest hb
      have place : source.toList = before ++ gap ++ text.toList ++ b :: rest := by rw [hs]; simp
      obtain ⟨tokens, hscan, hwords⟩ :=
        ih hrest hall (before ++ gap ++ text.toList)
          (acc.push ⟨k, byteLength (before ++ gap), byteLength text.toList⟩) place
      refine ⟨#[⟨k, byteLength (before ++ gap), byteLength text.toList⟩] ++ tokens, ?_, ?_⟩
      · rw [List.append_assoc, hg.skip, ← byteLength_append]
        nth_rewrite 1 [htext]
        rw [List.cons_append, scanFrom_token hm rfl, ← byteLength_append, hscan, Array.push_eq_append,
          Array.append_assoc]
      · rw [Array.toList_append, List.map_append, hwords, contents_cons]
        exact congrArg (fun c => c :: contents words) (content_of_toList place k)

theorem words_of_scan {source : String} {tokens : List Token} (h : scan source = .ok tokens) :
    ∃ words, tokens.map (content source) = contents words ∧ ∀ w ∈ words, Stands w.1 w.2 := by
  unfold scan at h
  split at h
  · rename_i out hscan
    cases h
    obtain ⟨words, tokens, rfl, hwords, hall⟩ := words_of_scanFrom hscan source [] rfl rfl
    exact ⟨words, by simpa using hwords, hall⟩
  · cases h

theorem LaidOut.scan {words : List (Kind × String)} {source : String} (h : LaidOut (words.map Prod.snd) source.toList)
    (hw : ∀ w ∈ words, Stands w.1 w.2) :
    ∃ tokens, Token.scan source = .ok tokens ∧ tokens.map (content source) = contents words := by
  obtain ⟨tokens, hscan, hwords⟩ := h.scanFrom hw source [] #[] rfl
  refine ⟨tokens.toList, ?_, hwords⟩
  rw [Token.scan, show Token.scanFrom 0 #[] source.toList = _ from hscan]
  simp

/-! ## Reading and compiling -/

/-- A token with a text stands at a place of the source. -/
theorem isSome_at?_of_text? {source text : String} {t : Token} (h : t.text? source = some text) :
    (Text.Excerpt.at? source t.loc).isSome = true := by
  obtain ⟨a, b, rfl, ha, -⟩ := Text.slice?_eq_some_iff.1 h
  have before : min t.loc (a ++ text ++ b).utf8ByteSize = t.loc := by
    rw [String.utf8ByteSize_append, String.utf8ByteSize_append]
    omega
  rw [Text.Excerpt.at?, before, Text.splitAt?_eq_some_iff.2 ⟨String.append_assoc .., ha⟩]
  rfl

theorem exists_text_of_contents {source : String} {tokens : List Token} {words : List (Kind × String)}
    (h : tokens.map (content source) = contents words) {t : Token} (ht : t ∈ tokens) :
    ∃ text, t.text? source = some text := by
  have said : content source t ∈ contents words := h ▸ List.mem_map_of_mem ht
  rcases List.mem_append.1 said with said | said
  · obtain ⟨w, -, hw⟩ := List.mem_map.1 said
    exact ⟨w.2, (congrArg Prod.snd hw).symm⟩
  · exact ⟨"", congrArg Prod.snd (List.mem_singleton.1 said)⟩

/-- Tokens that say the same differ in their spans only. -/
theorem lexemes_of_contents {source source' : String} {tokens tokens' : List Token} {words : List (Kind × String)}
    (limit : Nat)
    (h : tokens.map (content source) = contents words) (h' : tokens'.map (content source') = contents words) :
    List.Forall₂ (Twins.Lexemes ⟨source, source', limit⟩) (tokens.map (lexeme source))
      (tokens'.map (lexeme source')) := by
  have same : List.Forall₂ Eq (tokens.map (content source)) (tokens'.map (content source')) := by
    rw [List.forall₂_eq_eq_eq, h, h']
  rw [List.forall₂_map_left_iff, List.forall₂_map_right_iff] at same ⊢
  refine ((List.forall₂_and_left _ _).2 ⟨fun t ht => exists_text_of_contents h ht, same⟩).imp fun t t' ht => ?_
  obtain ⟨⟨text, htext⟩, hc⟩ := ht
  obtain ⟨kind, texts⟩ := Prod.mk.inj hc
  exact ⟨kind, texts, (isSome_at?_of_text? htext).trans (isSome_at?_of_text? (texts ▸ htext)).symm⟩

end Token

theorem Program.parse_alike {source source' : String} {tokens tokens' : List Token} {words : List (Token.Kind × String)}
    (hscan : Token.scan source = .ok tokens) (hscan' : Token.scan source' = .ok tokens')
    (h : tokens.map (Token.content source) = Token.contents words)
    (h' : tokens'.map (Token.content source') = Token.contents words) :
    SameButPlace (parse source) (parse source') := by
  rw [parse, parse, hscan, hscan']
  exact ofTokens_alike (Token.lexemes_of_contents _ h h')

theorem compile_alike {source source' : String} (h : SameButPlace (Program.parse source) (Program.parse source'))
    (options : Options) : SameButPlace (compile source options) (compile source' options) := by
  unfold compile compileLogged
  rcases h with h | ⟨e, e', he, he', h⟩
  · rw [h]
    exact .inl rfl
  · rw [he, he']
    exact .inr ⟨e, e', rfl, rfl, h⟩

/-- The layout of a source text does not matter. Its tokens are words and an end; written with any gaps
    around them the words are scanned as the same tokens, and for any options the text compiles to the same
    image, or fails alike: with the same error, or with the same diagnostic at another place. -/
theorem compile_laid_out {source : String} {tokens : List Token} (h : Token.scan source = .ok tokens) :
    ∃ words, tokens.map (Token.content source) = Token.contents words ∧
      ∀ source' : String, Token.LaidOut (words.map Prod.snd) source'.toList →
        (∃ tokens', Token.scan source' = .ok tokens' ∧ tokens'.map (Token.content source') = Token.contents words) ∧
          ∀ options, SameButPlace (compile source options) (compile source' options) := by
  obtain ⟨words, hwords, hall⟩ := Token.words_of_scan h
  refine ⟨words, hwords, fun source' hlaid => ?_⟩
  obtain ⟨tokens', hscan', hwords'⟩ := hlaid.scan hall
  exact ⟨⟨tokens', hscan', hwords'⟩, compile_alike (Program.parse_alike h hscan' hwords hwords')⟩

/-- A program without blanks, and with blanks and comments in all gaps. -/
theorem commented_laid_out : ∃ tokens words, Token.scan "int f()\x7b2<=3;\x7d" = .ok tokens ∧
    tokens.map (Token.content "int f()\x7b2<=3;\x7d") = Token.contents words ∧
      Token.LaidOut (words.map Prod.snd) "\tint\n/* **/f (\r) //;\n\x7b 2\x0c<= 3 ; \x7d ".toList ∧
        ∀ options, SameButPlace (compile "int f()\x7b2<=3;\x7d" options)
          (compile "\tint\n/* **/f (\r) //;\n\x7b 2\x0c<= 3 ; \x7d " options) := by
  have scanned : Token.scan "int f()\x7b2<=3;\x7d" = .ok
      [⟨.keyword, 0, 3⟩, ⟨.ident, 4, 1⟩, ⟨.mark, 5, 1⟩, ⟨.mark, 6, 1⟩, ⟨.mark, 7, 1⟩,
        ⟨.number (some 2), 8, 1⟩,
        ⟨.mark, 9, 2⟩, ⟨.number (some 3), 11, 1⟩, ⟨.mark, 12, 1⟩, ⟨.mark, 13, 1⟩, ⟨.eof, 14, 0⟩] := by
    decide +kernel
  obtain ⟨words, hwords, laid⟩ := compile_laid_out scanned
  have said : words = [(.keyword, "int"), (.ident, "f"), (.mark, "("), (.mark, ")"), (.mark, "\x7b"),
      (.number (some 2), "2"), (.mark, "<="), (.number (some 3), "3"), (.mark, ";"), (.mark, "\x7d")] := by
    refine Token.contents_inj (hwords.symm.trans ?_)
    decide +kernel
  subst said
  have after (b : Char) (text : String) {texts : List String} {rest : List Char} (hb : Token.isBlank b)
      (h : Token.LaidOut texts rest) : Token.LaidOut (text :: texts) ([b] ++ text.toList ++ rest) := .cons (.blank hb) h
  have block : Token.Gap ['\n', '/', '*', ' ', '*', '*', '/'] :=
    .snoc (.blank (b := '\n') rfl) (@Token.Filler.block [' ', '*'] (by decide))
  have line : Token.Gap [' ', '/', '/', ';', '\n'] :=
    .snoc (.blank (b := ' ') rfl) (@Token.Filler.line [';'] (by decide))
  have layout : Token.LaidOut ["int", "f", "(", ")", "\x7b", "2", "<=", "3", ";", "\x7d"]
      "\tint\n/* **/f (\r) //;\n\x7b 2\x0c<= 3 ; \x7d ".toList := by
    refine after '\t' "int" rfl (.cons block (after ' ' "(" rfl (after '\r' ")" rfl (.cons line ?_))))
    exact after ' ' "2" rfl (after '\x0c' "<=" rfl (after ' ' "3" rfl (after ' ' ";" rfl (after ' ' "\x7d" rfl
      (.nil (.blank rfl))))))
  exact ⟨_, _, scanned, hwords, layout, (laid _ layout).2⟩

end DotCom
