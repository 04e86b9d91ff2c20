/-
  DotCom.Program.Parse — the grammar of programs, one reader for each of its phrases. Readers
  that nest take the reader of what they enclose; `expr` and `stmt` tie the knot, to a depth
  that the number of tokens bounds.
-/

import DotCom.Program.Cursor
import DotCom.Token.Scan

namespace DotCom

namespace Reader

/-! ## Types -/

def baseType : Reader Ty := do
  if ← acceptKeyword "int" then
    return .int
  if ← acceptKeyword "char" then
    return .char
  failHere .expectedType

def star (ty : Ty) : Reader (Ty ⊕ Ty) := do
  if ← acceptMark "*" then
    match ty.pointer? with
    | some ty => return .inl ty
    | none => crash
  else return .inr ty

def type : Reader Ty := do iterate star (← baseType)

/-! ## Expressions -/

/-- A name, a literal, or an expression in parentheses. -/
def primary (expr : Reader Expr) : Reader Expr := do
  if ← acceptMark "(" then
    let e ← expr
    expectMark ")"
    return e
  literal

def suffixed (expr : Reader Expr) (node : Expr) : Reader (Expr ⊕ Expr) := do
  let here ← loc
  if ← acceptMark "(" then
    match node with
    | .ident callee => return .inl (.call callee (← listed expr))
    | _ => failAt here .calleeNotNamed
  else if ← acceptMark "[" then
    let index ← expr
    expectMark "]"
    return .inl (.chain [node, index] [.subscript])
  else return .inr node

/-- A primary expression and the calls and subscripts behind it. -/
def postfixed (expr : Reader Expr) : Reader Expr := do iterate (suffixed expr) (← primary expr)

/-- An operand and what follows it at its level, as one node. -/
def gather (first : Expr) (tail : List (BinaryOp × Expr)) : Expr :=
  if tail.isEmpty then first
  else .chain (first :: tail.map Prod.snd) (tail.map Prod.fst)

def operation (operand : Reader Expr) (ops : List BinaryOp) (tail : Array (BinaryOp × Expr)) :
    Reader (Array (BinaryOp × Expr) ⊕ Array (BinaryOp × Expr)) := do
  match (← mark?).bind fun symbol => ops.find? (·.symbol == symbol) with
  | some op =>
    advance
    return .inl (tail.push (op, ← operand))
  | none => return .inr tail

/-- Operands joined by the operators of the given levels, loosest first. -/
def joined (operand : Reader Expr) : List (List BinaryOp) → Reader Expr
  | [] => operand
  | ops :: tighter => do
    let first ← joined operand tighter
    let tail ← iterate (operation (joined operand tighter) ops) #[]
    return gather first tail.toList

/-- An assignment, or an expression without one. -/
def assignment (side : Reader Expr) : Reader Expr := do
  let start ← loc
  let left ← side
  unless ← acceptMark "=" do
    return left
  match left with
  | .ident target =>
    let value ← side
    if ← atMark "=" then
      failHere .chainedAssignment
    return .assign target value
  | _ => failAt start .assignmentTarget

/-- An expression with at most `n` expressions inside each other. -/
def nestedExpr : Nat → Reader Expr
  | 0 => crash
  | n + 1 => assignment (joined (postfixed (nestedExpr n)) BinaryOp.levels)

def expr : Reader Expr := do nestedExpr (← read).limit

/-! ## Statements -/

def nextStmt (stmt : Reader Stmt) (body : Array Stmt) : Reader (Array Stmt ⊕ Array Stmt) := do
  if ← acceptMark "\x7d" then
    return .inr body
  if ← atEnd then
    failHere .unclosedBlock
  else return .inl (body.push (← stmt))

def block (stmt : Reader Stmt) : Reader (List Stmt) := do
  expectMark "\x7b"
  return (← iterate (nextStmt stmt) #[]).toList

def guarded (stmt : Reader Stmt) : Reader (Expr × List Stmt) := do
  expectMark "("
  let guard ← expr
  expectMark ")"
  return (guard, ← block stmt)

/-- One more branch of an `if`, and what follows it if that is the last. -/
def nextBranch (stmt : Reader Stmt) (branches : Array (Expr × List Stmt)) :
    Reader (Array (Expr × List Stmt) ⊕ Array (Expr × List Stmt) × IfChain) := do
  let branches := branches.push (← guarded stmt)
  unless ← acceptKeyword "else" do
    return .inr (branches, .done)
  if ← acceptKeyword "if" then
    return .inl branches
  return .inr (branches, .otherwise (← block stmt))

/-- The branches of an `if` whose keyword has been taken. -/
def ifChain (stmt : Reader Stmt) : Reader IfChain := do
  let (branches, last) ← iterate (nextBranch stmt) #[]
  return branches.toList.foldr (fun b next => .branch b.1 b.2 next) last

/-- A statement with at most `n` statements inside each other. -/
def nestedStmt : Nat → Reader Stmt
  | 0 => crash
  | n + 1 => do
    if (← atKeyword "int") || (← atKeyword "char") then
      let ty ← type
      let name ← identifier
      expectMark ";"
      return .declare ty name
    if ← acceptKeyword "return" then
      let e ← expr
      expectMark ";"
      return .ret e
    if ← acceptKeyword "if" then
      return .cond (← ifChain (nestedStmt n))
    if ← acceptKeyword "while" then
      let (guard, body) ← guarded (nestedStmt n)
      return .loop guard body
    let e ← expr
    expectMark ";"
    return .expr e

def stmt : Reader Stmt := do nestedStmt (← read).limit

/-! ## Functions -/

def param : Reader Param := do
  let ty ← type
  return ⟨ty, ← identifier⟩

def function : Reader Function := do
  let returnType ← type
  let name ← identifier
  expectMark "("
  let params ← listed param
  return ⟨name, returnType, params, ← block stmt⟩

def nextFunction (fs : Array Function) : Reader (Array Function ⊕ Array Function) := do
  if ← atEnd then
    return .inr fs
  return .inl (fs.push (← function))

/-- Functions up to the end token, which is left. -/
def functions : Reader (List Function) := return (← iterate nextFunction #[]).toList

end Reader

namespace Program

def ofTokens (source : String) (tokens : List Token) : Except Failure Program := do
  let lexemes := tokens.map (Token.lexeme source)
  let (functions, _) ← ((Reader.functions ⟨source, tokens.length + 1⟩).run lexemes).mapError Halt.failure
  return ⟨functions⟩

def parse (source : String) : Except Failure Program := do
  ofTokens source (← Token.scan source)

end Program

end DotCom
