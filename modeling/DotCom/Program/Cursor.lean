/-
  DotCom.Program.Cursor — reading tokens one after the other. A `Reader` looks at the tokens
  that are left and takes some of them; it fails with a diagnostic at the next token, or
  crashes when the text of a token whose span is no slice of the source is asked for. A failure
  keeps the tokens that were left.

  A token's text is looked at only where it matters: of marks and keywords when one is
  compared, of an identifier when it is taken, of any token when a diagnostic names it.
-/

import DotCom.CompileError
import DotCom.Program
import DotCom.Token

namespace DotCom

/-- What stays the same while a source text is read. -/
structure Reading where
  source : String
  /-- More than the tokens there are: nothing repeats more often or nests more deeply. -/
  limit : Nat

/-- How reading ends without a result, and the tokens that are left where it does. -/
structure Halt where
  failure : Failure
  left : List Lexeme

abbrev Reader := ReaderT Reading (StateT (List Lexeme) (Except Halt))

namespace Reader

variable {α β σ : Type}

def crash : Reader α := do throw ⟨.crashed, ← get⟩

/-- The next token, if one is left. -/
def peek? : Reader (Option Lexeme) := return (← get).head?

/-- Takes the next token; there is none to be taken behind the last. -/
def advance : Reader Unit := do
  match ← get with
  | _ :: rest => set rest
  | [] => crash

/-- The byte offset of the next token; the end of the source if none is left. -/
def loc : Reader Nat := do
  match ← peek? with
  | some l => return l.token.loc
  | none => return (← read).source.utf8ByteSize

def text (l : Lexeme) : Reader String :=
  match l.text? with
  | some t => pure t
  | none => crash

def atEnd : Reader Bool := do
  match ← peek? with
  | some l => return l.token.kind = .eof
  | none => return false

/-! ## Diagnostics -/

def failAt (loc : Nat) (cause : SyntaxError) : Reader α := do
  throw ⟨.at (← read).source loc cause, ← get⟩

/-- Fails at the next token, which the cause names. -/
def failHere (cause : String → SyntaxError) : Reader α := do
  match Lexeme.describe? (← peek?) with
  | some got => failAt (← loc) (cause got)
  | none => crash

/-! ## Taking tokens -/

/-- The text of the next token if it is a mark. -/
def mark? : Reader (Option String) := do
  match ← peek? with
  | some l => if l.token.kind = .mark then return some (← text l) else return none
  | none => return none

def atMark (mark : String) : Reader Bool := return (← mark?) == some mark

def atKeyword (word : String) : Reader Bool := do
  match ← peek? with
  | some l => if l.token.kind = .keyword then return (← text l) == word else return false
  | none => return false

/-- Takes the next token if it is the given mark. -/
def acceptMark (mark : String) : Reader Bool := do
  if ← atMark mark then
    advance
    return true
  return false

/-- Takes the next token if it is the given keyword. -/
def acceptKeyword (word : String) : Reader Bool := do
  if ← atKeyword word then
    advance
    return true
  return false

def expectMark (mark : String) : Reader Unit := do
  unless ← acceptMark mark do
    failHere (.expectedMark mark)

def identifier : Reader String := do
  match ← peek? with
  | some l =>
    if l.token.kind = .ident then
      let name ← text l
      advance
      return name
    failHere .expectedIdentifier
  | none => failHere .expectedIdentifier

/-- A name, a string or a number. -/
def literal : Reader Expr := do
  match ← peek? with
  | some l =>
    match l.token.kind with
    | .ident => return .ident (← identifier)
    | .str (some t) => do advance; return .str t
    | .str none => failAt l.token.loc .stringWithoutContents
    | .number (some n) => do advance; return .int n
    | .number none => failAt l.token.loc .numberWithoutValue
    | _ => failHere .expectedExpression
  | none => failHere .expectedExpression

/-! ## Repetition -/

/-- Repeats a step until it is done, at most `n` times. -/
def repeatAtMost (step : σ → Reader (σ ⊕ β)) : Nat → σ → Reader β
  | 0, _ => crash
  | n + 1, s => do
    match ← step s with
    | .inl s => repeatAtMost step n s
    | .inr b => return b

/-- Repeats a step until it is done. A step that goes on takes a token, so the limit on tokens
    is one on steps. -/
def iterate (step : σ → Reader (σ ⊕ β)) (s : σ) : Reader β := do
  repeatAtMost step (← read).limit s

/-- One more item, and the comma or the closing parenthesis behind it. -/
def nextItem (item : Reader α) (items : Array α) : Reader (Array α ⊕ Array α) := do
  let items := items.push (← item)
  if ← acceptMark ")" then
    return .inr items
  expectMark ","
  return .inl items

/-- Items separated by commas up to a closing parenthesis, which is taken. -/
def listed (item : Reader α) : Reader (List α) := do
  if ← acceptMark ")" then
    return []
  return (← iterate (nextItem item) #[]).toList

end Reader

end DotCom
