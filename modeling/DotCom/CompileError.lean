/-
  DotCom.CompileError — why a source text is not compiled. A text is refused either for its
  form (`SyntaxError`, shown at a place of the text) or for what it asks of the image.

  `Failure` keeps apart the two ways an operation ends without a result: it refuses its input
  with an error, or a value leaves the range the operation is defined on and it crashes.
-/

import DotCom.Text.Excerpt
import DotCom.Text.Quoted

namespace DotCom

/-- What is wrong with the form of a source text. -/
inductive SyntaxError where
  | unclosedComment
  | leadingZeros
  | numberTooLarge
  | unknownEscape (c : Char)
  | unterminatedString
  | invalidToken (c : Char)
  | expectedMark (mark got : String)
  | expectedType (got : String)
  | expectedIdentifier (got : String)
  | expectedExpression (got : String)
  | unclosedBlock (got : String)
  | assignmentTarget
  | chainedAssignment (got : String)
  | calleeNotNamed
  | numberWithoutValue
  | stringWithoutContents
  deriving DecidableEq, Repr

namespace SyntaxError

def message : SyntaxError → String
  | unclosedComment => "unclosed block comment"
  | leadingZeros => "invalid number: leading zeros are not allowed"
  | numberTooLarge => "invalid number: number too large to fit in target type"
  | unknownEscape c => "unknown escape sequence '\\" ++ c.toString ++ "'"
  | unterminatedString => "unterminated string literal"
  | invalidToken c => "invalid token: '" ++ c.toString ++ "'"
  | expectedMark mark got => s!"expected \"{mark}\", but got \"{got}\""
  | expectedType got => s!"expected a type, but got \"{got}\""
  | expectedIdentifier got => s!"expected an identifier, but got \"{got}\""
  | expectedExpression got => s!"expected an expression, but got \"{got}\""
  | unclosedBlock got => s!"expected \"\x7d\" before end of input, but got \"{got}\""
  | assignmentTarget => "assignment target must be a variable"
  | chainedAssignment got => s!"chained assignment is not supported, but got \"{got}\""
  | calleeNotNamed => "only named functions can be called"
  | numberWithoutValue => "internal error: numeric token missing value"
  | stringWithoutContents => "internal error: string token missing contents"

end SyntaxError

inductive CompileError where
  | located (place : Text.Excerpt) (cause : SyntaxError)
  | undefinedIdentifier (name function : String)
  | redeclaration (name function : String)
  | unsupportedStorageClass (name type : String)
  | unsupportedStatement (statement function : String)
  | unsupportedOperator (op function : String)
  | unresolvedCallee (name function : String)
  | malformedChain (operands operators : Nat) (function : String)
  | builtinArity (name : String) (expected found : Nat)
  | duplicateFunction (name : String)
  | missingEntryPoint (name : String)
  | integerOutOfRange (value : Int)
  | unencodableCharacter (c : Char)
  | frameTooLarge (function : String)
  | branchTooLarge (size : Nat) (function : String)
  | bufferOverflow (needed capacity : Nat)
  | invalidLayout (loadBase : UInt16) (capacity : Nat)
  | noActiveScope
  deriving DecidableEq, Repr

namespace CompileError

def message : CompileError → String
  | located place cause => place.annotate cause.message
  | undefinedIdentifier name function => s!"undefined identifier `{name}` in function `{function}`"
  | redeclaration name function => s!"`{name}` is declared twice in function `{function}`"
  | unsupportedStorageClass name type => s!"`{name}`: storage class `{type}` is not supported"
  | unsupportedStatement statement function =>
    s!"`{statement}` statement is not supported (in function `{function}`)"
  | unsupportedOperator op function => s!"operator `{op}` is not supported (in function `{function}`)"
  | unresolvedCallee name function =>
    s!"call to `{name}` in function `{function}` cannot be resolved; " ++
      "functions must be defined before they are called"
  | malformedChain operands operators function =>
    s!"expression chain has {operands} operand(s) but {operators} operator(s) (in function `{function}`)"
  | builtinArity name expected found => s!"`{name}` expects {expected} argument(s) but got {found}"
  | duplicateFunction name => s!"function `{name}` is defined more than once"
  | missingEntryPoint name => s!"entry point `{name}` is not defined"
  | integerOutOfRange value => s!"integer literal {value} does not fit in 16 bits"
  | unencodableCharacter c => "character " ++ Text.quoted c ++ " cannot be encoded as a single byte"
  | frameTooLarge function => s!"stack frame of function `{function}` exceeds 32767 bytes"
  | branchTooLarge size function =>
    s!"branch body of {size} bytes in function `{function}` exceeds the 127-byte short jump range"
  | bufferOverflow needed capacity =>
    s!"code image needs {needed} bytes but only {capacity} are addressable"
  | invalidLayout loadBase capacity =>
    "load base " ++ Text.hex 4 loadBase.toNat ++ " with capacity " ++ Text.hex 1 capacity ++
      " does not fit in a 64 KiB segment"
  | noActiveScope => "expression compiled outside of any function"

end CompileError

/-- How an operation ends without a result. -/
inductive Failure where
  /-- The input is refused. -/
  | rejected (error : CompileError)
  /-- A number, an offset or a slice left its range. -/
  | crashed
  deriving DecidableEq, Repr

/-- The refusal of a source text at a place of it. -/
def Failure.at (source : String) (loc : Nat) (cause : SyntaxError) : Failure :=
  match Text.Excerpt.at? source loc with
  | some place => .rejected (.located place cause)
  | none => .crashed

end DotCom
