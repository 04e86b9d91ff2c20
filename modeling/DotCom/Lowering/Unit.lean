/-
  DotCom.Lowering.Unit — code for functions and whole programs. A program starts with a stub
  that calls its entry point and exits with what it returns; the functions follow in order, so
  a function is called only by itself and by those behind it.
-/

import DotCom.Lowering.Control

namespace DotCom

open Gen

def Function.lower (f : Function) : Gen Unit := do
  let start ← address
  onFunctions (FunctionTable.define f.name start)
  report (.entered f.name start)
  unless f.params.isEmpty do
    report (.unboundParams f.name f.params.length)
  onFrames (Frames.push { function := f.name })
  emit (.push .bp)
  emit (.movReg .bp .sp)
  lowerStmts f.body
  epilogue
  let closed ← onFrames Frames.pop
  match closed with
  | some frame => report (.left frame.function frame.allocated.toNat)
  | none => pure ()

def lowerFunctions : List Function → Gen Unit
  | [] => pure ()
  | f :: fs => do
    f.lower
    lowerFunctions fs

/-- Emits the stub, then every function, and points the stub at the entry point. -/
def Program.lower (p : Program) (entryPoint : String) : Gen Unit := do
  report (.started p.functions.length entryPoint)
  let entry ← emitFixup (.movImm .ax 0) .word
  emit (.callReg .ax)
  emit (.dosCall .exit)
  lowerFunctions p.functions
  match (← get).functions.address? entryPoint with
  | none => reject (.missingEntryPoint entryPoint)
  | some start =>
    patch entry start
    report (.finished (← position))

end DotCom
