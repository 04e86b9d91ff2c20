/-
  DotCom.Command.Session — what the command does: it reads one file, compiles it and writes one
  file. Where the image goes is decided last, and nothing is written unless there is an image.

  The files are reached through a `Disk`, which is a file tree or the computer's own.
-/

import DotCom.Command.Arguments
import DotCom.Command.FileTree
import DotCom.Command.Path

namespace DotCom.Command

/-- A place where whole files are read and written. -/
structure Disk (m : Type → Type) where
  read : String → m (Except DiskError (Array UInt8))
  write : String → Array UInt8 → m (Except DiskError Unit)

/-- What the command leaves besides files. -/
structure Report where
  exit : UInt8
  stdout : String := ""
  stderr : String := ""
  deriving DecidableEq, Repr

namespace Report

def failed (message : String) : Report := { exit := 1, stderr := message ++ "\n" }

def usage : String := "Usage: comcc [OPTIONS] <INPUT>\n"

end Report

def Invocation.options (i : Invocation) : Options := { capacity := i.capacity, entryPoint := i.entry }

/-- Where the image goes: the file asked for, or the input with another extension. -/
def Invocation.target (i : Invocation) : String :=
  i.output?.getD (String.ofList (withExtension i.input.toList "com".toList))

def decodeText (bytes : Array UInt8) : Except DiskError String :=
  match String.fromUTF8? ⟨bytes⟩ with
  | some text => .ok text
  | none => .error (.other "stream did not contain valid UTF-8")

section

variable {m : Type → Type} [Monad m]

def Disk.readText (disk : Disk m) (path : String) : m (Except DiskError String) := do
  return (← disk.read path).bind decodeText

def compileFile (disk : Disk m) (i : Invocation) : m Report := do
  match ← disk.readText i.input with
  | .error e => return .failed ("error reading '" ++ i.input ++ "': " ++ e.message)
  | .ok source =>
    match DotCom.compile source i.options with
    | .error (.rejected e) => return .failed e.message
    | .error .crashed => return { exit := 101, stderr := "attempt to add with overflow\n" }
    | .ok image =>
      match ← disk.write i.target image with
      | .error e => return .failed ("error writing '" ++ i.target ++ "': " ++ e.message)
      | .ok () => return { exit := 0 }

def run (disk : Disk m) (args : List String) : m Report :=
  match request? args with
  | none => pure { exit := 2, stderr := Report.usage }
  | some .version => pure { exit := 0, stdout := "comcc 0.1.0\n" }
  | some .help => pure { exit := 0, stdout := Report.usage }
  | some (.compile i) => compileFile disk i

end

def treeDisk : Disk (StateM FileTree) where
  read path := return (← get).read path
  write path bytes := do
    match (← get).write path bytes with
    | .ok tree => do set tree; return .ok ()
    | .error e => return .error e

end DotCom.Command
