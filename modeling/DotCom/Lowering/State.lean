/-
  DotCom.Lowering.State — what lowering works on: the image under construction, the functions
  entered so far, the frames that are open and the events on the way. A step that fails leaves
  behind whatever it did before.
-/

import DotCom.Frame
import DotCom.FunctionTable
import DotCom.Image
import DotCom.Instr

namespace DotCom

/-- What lowering reports while it goes. -/
inductive Event where
  | started (functions : Nat) (entryPoint : String)
  | entered (function : String) (address : UInt16)
  | unboundParams (function : String) (count : Nat)
  | literal (size : Nat) (address : UInt16)
  | patched (pos : Nat) (value : UInt16)
  | left (function : String) (frame : Nat)
  | finished (size : Nat)
  deriving DecidableEq, Repr

namespace Event

inductive Level where
  | info
  | debug
  | trace
  deriving DecidableEq, Repr

def level : Event → Level
  | started .. => .info
  | entered .. => .debug
  | unboundParams .. => .debug
  | literal .. => .trace
  | patched .. => .trace
  | left .. => .debug
  | finished .. => .info

def message : Event → String
  | started functions entryPoint =>
    s!"compiling {functions} function(s), entry point `{entryPoint}`"
  | entered function address => s!"function `{function}` at " ++ Text.hex 4 address.toNat
  | unboundParams function count =>
    s!"`{function}`: {count} parameter(s) are not bound to frame slots"
  | literal size address => s!"string literal of {size} byte(s) at " ++ Text.hex 4 address.toNat
  | patched pos value => "patch " ++ Text.hex 4 pos ++ " <- " ++ Text.hex 4 value.toNat
  | left function frame => s!"function `{function}` done, frame of {frame} byte(s)"
  | finished size => s!"image is {size} byte(s)"

end Event

/-- The state of lowering. -/
structure Generator where
  image : Image
  functions : FunctionTable := {}
  frames : Frames := []
  events : Array Event := #[]
  deriving DecidableEq, Repr

/-- Steps of lowering. -/
abbrev Gen := EStateM Failure Generator

namespace Gen

variable {α : Type}

def reject (e : CompileError) : Gen α := throw (.rejected e)

/-- Runs a step on the image. -/
def onImage (build : Image.Build α) : Gen α := fun ⟨image, functions, frames, events⟩ =>
  match build image with
  | .ok a image => .ok a ⟨image, functions, frames, events⟩
  | .error e image => .error e ⟨image, functions, frames, events⟩

/-- Runs a step on the function table. -/
def onFunctions (edit : EStateM Failure FunctionTable α) : Gen α :=
  fun ⟨image, functions, frames, events⟩ =>
  match edit functions with
  | .ok a functions => .ok a ⟨image, functions, frames, events⟩
  | .error e functions => .error e ⟨image, functions, frames, events⟩

/-- Runs a step on the frames. -/
def onFrames (edit : EStateM Failure Frames α) : Gen α := fun ⟨image, functions, frames, events⟩ =>
  match edit frames with
  | .ok a frames => .ok a ⟨image, functions, frames, events⟩
  | .error e frames => .error e ⟨image, functions, frames, events⟩

def report (event : Event) : Gen Unit :=
  modify fun ⟨image, functions, frames, events⟩ => ⟨image, functions, frames, events.push event⟩

/-- The result of a look-up that may fail. -/
def attempt : Except Failure α → Gen α
  | .ok a => pure a
  | .error e => throw e

/-- The frame of the function being lowered. -/
def frame : Gen Frame := do attempt (← get).frames.top

def position : Gen Nat := return (← get).image.size

/-- The loaded address of the next byte. -/
def address : Gen UInt16 := return (← get).image.address

def emit (i : Instr) : Gen Unit := onImage (Image.emit i.encode)

def emitAll : List Instr → Gen Unit
  | [] => pure ()
  | i :: is => do
    emit i
    emitAll is

/-- Emits an instruction whose last bytes are a placeholder. -/
def emitFixup (i : Instr) (width : Width) : Gen Fixup := onImage (Image.emitFixup i.encode width)

def patch (fixup : Fixup) (value : UInt16) : Gen Unit := do
  report (.patched fixup.pos value)
  onImage (Image.patch fixup value)

def patchAll (value : UInt16) : List Fixup → Gen Unit
  | [] => pure ()
  | f :: fs => do
    patch f value
    patchAll value fs

end Gen

end DotCom
