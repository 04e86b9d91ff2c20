/-
  DotCom.Token — the tokens of a source text. A token is a kind and a span of bytes; its text
  is read off the source when it is needed.
-/

import DotCom.Text.Slice

namespace DotCom

namespace Token

/-- A number and a string carry what they denote, if it is known. -/
inductive Kind where
  | mark
  | keyword
  | ident
  | number (value? : Option Int)
  | str (contents? : Option String)
  | eof
  deriving DecidableEq, Repr

end Token

structure Token where
  kind : Token.Kind
  loc : Nat
  len : Nat
  deriving DecidableEq, Repr

namespace Token

/-- The span of a token, if it is a slice of the source. -/
def text? (source : String) (t : Token) : Option String :=
  Text.slice? source t.loc (t.loc + t.len)

end Token

/-- A token with its text, if its span is a slice of the source. -/
structure Lexeme where
  token : Token
  text? : Option String

def Token.lexeme (source : String) (t : Token) : Lexeme := ⟨t, t.text? source⟩

/-- How messages name a token; the end of the text also stands for a token that is not there. -/
def Lexeme.describe? : Option Lexeme → Option String
  | none => some "EOF"
  | some l => if l.token.kind = .eof then some "EOF" else l.text?

end DotCom
