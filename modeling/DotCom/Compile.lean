/-
  DotCom.Compile — from a source text to an image: tokens, a program, the layout of the image,
  the code. The first of them that fails decides.
-/

import DotCom.Lowering.Unit
import DotCom.Program.Parse

namespace DotCom

structure Options where
  loadBase : UInt16 := 0x100
  /-- The most bytes an image may have. -/
  capacity : Nat := 0xff00
  /-- The function that the stub calls. -/
  entryPoint : String := "main"
  deriving DecidableEq, Repr

/-- Lowering that has emitted nothing. -/
def Generator.create (options : Options) : Except Failure Generator := do
  return { image := ← Image.create options.loadBase options.capacity }

/-- A result and the events on the way to it. -/
structure Compiled where
  result : Except Failure (Array UInt8)
  events : Array Event := #[]

namespace Program

def compileLogged (p : Program) (options : Options) : Compiled :=
  match Generator.create options with
  | .error e => ⟨.error e, #[]⟩
  | .ok g =>
    match p.lower options.entryPoint g with
    | .ok () g => ⟨.ok g.image.bytes, g.events⟩
    | .error e g => ⟨.error e, g.events⟩

def compile (p : Program) (options : Options) : Except Failure (Array UInt8) :=
  (p.compileLogged options).result

end Program

def compileLogged (source : String) (options : Options) : Compiled :=
  match Program.parse source with
  | .error e => ⟨.error e, #[]⟩
  | .ok p => p.compileLogged options

def compile (source : String) (options : Options) : Except Failure (Array UInt8) :=
  (compileLogged source options).result

end DotCom
