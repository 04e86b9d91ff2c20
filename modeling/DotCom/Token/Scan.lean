/-
  DotCom.Token.Scan — dividing a source text into tokens. Blanks and comments are skipped; at
  every other place the longest token of the class that its first character announces is taken.

  - `munch` takes one piece off the front of a text: a gap or a token.
  - `scan` repeats it to the end; `munch_rest_le` is why it gets there.
-/

import DotCom.CompileError
import DotCom.Token

namespace DotCom.Token

/-! ## Character classes -/

/-- The blanks between tokens: space, tab, newline, form feed and carriage return. -/
def isBlank (c : Char) : Bool :=
  c == ' ' || c == '\t' || c == '\n' || c == '\x0c' || c == '\r'

def isWordStart (c : Char) : Bool := c.isAlpha || c == '_'

def isWordChar (c : Char) : Bool := c.isAlphanum || c == '_'

def keywords : List String := ["int", "char", "return", "if", "else", "while"]

/-- The marks of two characters, which are taken before those of one. -/
def doubleMarks : List (Char × Char) :=
  [('=', '='), ('!', '='), ('<', '='), ('>', '='), ('<', '<'), ('>', '>'), ('&', '&'), ('|', '|')]

def singleMarks : List Char :=
  ['+', '-', '*', '/', '%', '&', '^', '|', '<', '>', '=', '(', ')', '[', ']', '\x7b', '\x7d', ',', ';']

def maxNumber : Nat := 0x7fffffffffffffff

def decimal (digits : List Char) : Nat :=
  digits.foldl (fun n c => 10 * n + (c.toNat - '0'.toNat)) 0

/-! ## One piece -/

/-- A piece taken off the front of a text: its kind if it is a token, its length in bytes and
    what is left. -/
structure Piece where
  kind? : Option Kind
  len : Nat
  rest : List Char

/-- Why no piece can be taken, and how many bytes past the front. -/
structure Misfit where
  offset : Nat
  cause : SyntaxError

def byteLength (cs : List Char) : Nat := cs.foldl (fun n c => n + c.utf8Size) 0

/-- Looks for the end of a block comment; `len` bytes of it are already taken. -/
def closeComment (len : Nat) : List Char → Except Misfit Piece
  | '*' :: '/' :: cs => .ok ⟨none, len + 2, cs⟩
  | c :: cs => closeComment (len + c.utf8Size) cs
  | [] => .error ⟨0, .unclosedComment⟩

def unescape? : Char → Option Char
  | 'n' => some '\n'
  | 't' => some '\t'
  | 'r' => some '\r'
  | '0' => some '\x00'
  | '\\' => some '\\'
  | '"' => some '"'
  | _ => none

/-- Reads a string literal to its closing quote; `len` bytes of it, which denote `acc`
    reversed, are already taken. -/
def closeString (len : Nat) (acc : List Char) : List Char → Except Misfit Piece
  | '"' :: cs => .ok ⟨some (.str (some (String.ofList acc.reverse))), len + 1, cs⟩
  | '\n' :: _ => .error ⟨0, .unterminatedString⟩
  | ['\\'] => .error ⟨0, .unterminatedString⟩
  | '\\' :: e :: cs =>
    match unescape? e with
    | some c => closeString (len + 1 + e.utf8Size) (c :: acc) cs
    | none => .error ⟨len, .unknownEscape e⟩
  | c :: cs => closeString (len + c.utf8Size) (c :: acc) cs
  | [] => .error ⟨0, .unterminatedString⟩

/-- A number that starts with the digit `c`. Only `0` itself starts with a zero. -/
def takeNumber (c : Char) (cs : List Char) : Except Misfit Piece :=
  let digits := c :: cs.takeWhile Char.isDigit
  if c == '0' && digits.length ≠ 1 then .error ⟨1, .leadingZeros⟩
  else if maxNumber < decimal digits then .error ⟨0, .numberTooLarge⟩
  else .ok ⟨some (.number (some (decimal digits))), digits.length, cs.dropWhile Char.isDigit⟩

def takeWord (c : Char) (cs : List Char) : Piece :=
  let chars := c :: cs.takeWhile isWordChar
  let kind := if keywords.contains (String.ofList chars) then .keyword else .ident
  ⟨some kind, chars.length, cs.dropWhile isWordChar⟩

def takeMark (c : Char) : List Char → Except Misfit Piece
  | d :: cs =>
    if doubleMarks.contains (c, d) then .ok ⟨some .mark, 2, cs⟩
    else if singleMarks.contains c then .ok ⟨some .mark, 1, d :: cs⟩
    else .error ⟨0, .invalidToken c⟩
  | [] => if singleMarks.contains c then .ok ⟨some .mark, 1, []⟩ else .error ⟨0, .invalidToken c⟩

/-- Takes one piece off the front of the text `c :: cs`. -/
def munch (c : Char) (cs : List Char) : Except Misfit Piece :=
  if isBlank c then .ok ⟨none, 1, cs⟩
  else if c == '/' && cs.head? == some '/' then
    .ok ⟨none, 1 + byteLength (cs.takeWhile (· ≠ '\n')), cs.dropWhile (· ≠ '\n')⟩
  else if c == '/' && cs.head? == some '*' then closeComment 2 cs.tail
  else if c.isDigit then takeNumber c cs
  else if isWordStart c then .ok (takeWord c cs)
  else if c == '"' then closeString 1 [] cs
  else takeMark c cs

/-! ## Every piece is shorter than its text -/

theorem closeComment_rest_le {len : Nat} {cs : List Char} {p : Piece} (h : closeComment len cs = .ok p) :
    p.rest.length ≤ cs.length := by
  fun_induction closeComment len cs with
  | case1 len cs => cases h; simp; omega
  | case2 len c cs _ ih => have := ih h; simp; omega
  | case3 => cases h

theorem closeString_rest_le {len : Nat} {acc cs : List Char} {p : Piece} (h : closeString len acc cs = .ok p) :
    p.rest.length ≤ cs.length := by
  fun_induction closeString len acc cs <;> simp_all <;> grind

theorem munch_rest_le {c : Char} {cs : List Char} {p : Piece} (h : munch c cs = .ok p) :
    p.rest.length ≤ cs.length := by
  have hd (p : Char → Bool) : (cs.dropWhile p).length ≤ cs.length := (List.dropWhile_suffix p).length_le
  unfold munch at h
  split at h
  · cases h; exact Nat.le_refl _
  split at h
  · cases h; exact hd _
  split at h
  · have := closeComment_rest_le h
    simp only [List.length_tail] at this
    omega
  split at h
  · unfold takeNumber at h
    dsimp only at h
    split at h
    · cases h
    split at h <;> cases h
    exact hd _
  split at h
  · cases h; exact hd _
  split at h
  · exact closeString_rest_le h
  · unfold takeMark at h
    grind

/-! ## The whole text -/

/-- Scans a text whose first character stands at byte `off`, behind the tokens `acc`. -/
def scanFrom (off : Nat) (acc : Array Token) : List Char → Except Misfit (Array Token)
  | [] => .ok (acc.push ⟨.eof, off, 0⟩)
  | c :: cs =>
    match h : munch c cs with
    | .error m => .error ⟨off + m.offset, m.cause⟩
    | .ok p =>
      have := munch_rest_le h
      scanFrom (off + p.len) (match p.kind? with | some k => acc.push ⟨k, off, p.len⟩ | none => acc) p.rest
termination_by cs => cs.length

/-- The tokens of a source text, the last of them its end. -/
def scan (source : String) : Except Failure (List Token) :=
  match scanFrom 0 #[] source.toList with
  | .ok tokens => .ok tokens.toList
  | .error m => .error (.at source m.offset m.cause)

end DotCom.Token
