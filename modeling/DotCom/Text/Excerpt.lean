/-
  DotCom.Text.Excerpt — the line of a source text that a diagnostic points into, with a caret
  under the place. Places are byte offsets; the caret counts characters.

  An offset past the end stands for the end. An offset inside a character stands for no place
  (`at?` is `none`).
-/

import DotCom.Text.Slice

namespace DotCom.Text

/-- A quoted source line and the marker that goes under it. -/
structure Excerpt where
  line : String
  marker : String
  deriving DecidableEq, Repr

namespace Excerpt

/-- The excerpt of the line between the newline before `left`'s end and the newline after
    `right`'s start, the caret standing between the two. -/
def between (left right : List Char) : Excerpt :=
  let before := (left.reverse.takeWhile (· ≠ '\n')).reverse
  let after := right.takeWhile (· ≠ '\n')
  { line := "'" ++ String.ofList (before ++ after) ++ "'"
    marker := String.ofList (List.replicate (before.length + 1) ' ' ++ ['^']) }

def at? (source : String) (loc : Nat) : Option Excerpt :=
  (splitAt? source (min loc source.utf8ByteSize)).map fun p => between p.1.toList p.2.toList

/-- An excerpt with a message behind its caret. -/
def annotate (e : Excerpt) (message : String) : String :=
  e.line ++ "\n" ++ e.marker ++ " " ++ message

end Excerpt

end DotCom.Text
