/-
  DotCom.Lowering.Control — code for statements. The branches of an `if` stand one behind the
  other: a guard, a jump over the body when the guard is zero, the body, and a jump to the end
  of them all.

  The first jump is short, so a body and its jump have at most 127 bytes; the jumps to the end
  go through `ax` to an address that is filled in when the end is reached.
-/

import DotCom.Lowering.Value

namespace DotCom

namespace Gen

/-- Gives the frame back and returns. -/
def epilogue : Gen Unit := do
  let size := (← frame).frameSize
  emit (.addImm .sp size)
  emit (.pop .bp)
  emit .ret

def declare (ty : Ty) (name : String) : Gen Unit := do
  attempt ((← frame).ensureUndeclared name)
  match ty.size? with
  | none => reject (.unsupportedStorageClass name ty.spelling)
  | some size =>
    let _ ← onFrames (Frames.onTop (Frame.declare name size))
    emit (.subImm .sp size.toInt16)

def sizeSince (start : Nat) : Gen Nat := do
  let stop ← position
  if stop < start then
    throw .crashed
  return stop - start

/-- Lets a short jump go over the body that has just been emitted behind it. -/
def closeBody (skip : Fixup) (start : Nat) : Gen Unit := do
  let size ← sizeSince start
  if size ≤ 127 then
    patch skip (UInt16.ofNat size)
  else
    reject (.branchTooLarge size (← frame).function)

end Gen

open Gen

mutual

def Stmt.lower : Stmt → Gen Unit
  | .declare ty name => declare ty name
  | .expr e => e.lower
  | .ret e => do
    e.lower
    epilogue
  | .cond chain => do
    let exits ← chain.lower
    let stop ← address
    patchAll stop exits
  | .loop _ _ => do
    reject (.unsupportedStatement "while" (← frame).function)

/-- Code for the branches in turn; the placeholders are those of the address after them. -/
def IfChain.lower : IfChain → Gen (List Fixup)
  | .branch guard body next => do
    guard.lower
    emit (.test .ax .ax)
    let skip ← emitFixup (.jcc .equal 0) .byte
    let start ← position
    lowerStmts body
    let exit ← emitFixup (.movImm .ax 0) .word
    emit (.jmpReg .ax)
    closeBody skip start
    let exits ← next.lower
    return exit :: exits
  | .otherwise body => do
    lowerStmts body
    return []
  | .done => return []

def lowerStmts : List Stmt → Gen Unit
  | [] => pure ()
  | s :: ss => do
    s.lower
    lowerStmts ss

end

end DotCom
