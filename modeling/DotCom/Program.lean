/-
  DotCom.Program — the tree of a program: functions of statements of expressions.

  A run of operators of one binding strength is one flat `chain`, its operands and operators
  in the order they are written; `a[i]` is a chain of two operands. Parentheses leave no node.
-/

import DotCom.Ty

namespace DotCom

inductive BinaryOp where
  | add | sub | mul | div | mod
  | shl | shr
  | bitAnd | bitXor | bitOr
  | logicAnd | logicOr
  | eq | ne | lt | le | gt | ge
  | subscript
  deriving DecidableEq, Repr

namespace BinaryOp

def symbol : BinaryOp → String
  | add => "+"
  | sub => "-"
  | mul => "*"
  | div => "/"
  | mod => "%"
  | shl => "<<"
  | shr => ">>"
  | bitAnd => "&"
  | bitXor => "^"
  | bitOr => "|"
  | logicAnd => "&&"
  | logicOr => "||"
  | eq => "=="
  | ne => "!="
  | lt => "<"
  | le => "<="
  | gt => ">"
  | ge => ">="
  | subscript => "[]"

/-- The operators written between their operands, loosest binding first. -/
def levels : List (List BinaryOp) :=
  [[logicOr], [logicAnd], [eq, ne], [lt, le, gt, ge], [bitOr], [bitXor], [bitAnd], [shl, shr],
   [add, sub], [mul, div, mod]]

end BinaryOp

inductive Expr where
  | ident (name : String)
  | int (value : Int)
  | str (text : String)
  | call (callee : String) (args : List Expr)
  | assign (target : String) (value : Expr)
  /-- `operands[0] operators[0] operands[1] ...`, from left to right. -/
  | chain (operands : List Expr) (operators : List BinaryOp)
  deriving Repr

mutual

inductive Stmt where
  | declare (ty : Ty) (name : String)
  | expr (e : Expr)
  | ret (e : Expr)
  | cond (chain : IfChain)
  | loop (guard : Expr) (body : List Stmt)
  deriving Repr

/-- The branches of an `if` in order, and what follows the last of them. -/
inductive IfChain where
  | branch (guard : Expr) (body : List Stmt) (next : IfChain)
  | otherwise (body : List Stmt)
  | done
  deriving Repr

end

structure Param where
  ty : Ty
  name : String
  deriving DecidableEq, Repr

structure Function where
  name : String
  returnType : Ty
  params : List Param
  body : List Stmt
  deriving Repr

structure Program where
  functions : List Function
  deriving Repr

end DotCom
