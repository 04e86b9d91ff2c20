/-
  DotCom.Main — the command on the computer's own files.
-/

import DotCom.Command.Session

namespace DotCom.Command

/-- The reason that the operating system gave. Its code comes with either sign. -/
def DiskError.ofIO : IO.Error → DiskError
  | .noFileOrDirectory .. => .notFound
  | .inappropriateType _ code _ => if code = 20 ∨ 0 - code = 20 then .notDirectory else .isDirectory
  | e => .other (toString e)

def realDisk : Disk IO where
  read path := do
    try return .ok (← IO.FS.readBinFile path).data
    catch e => return .error (.ofIO e)
  write path bytes := do
    try
      IO.FS.writeBinFile path ⟨bytes⟩
      return .ok ()
    catch e => return .error (.ofIO e)

end DotCom.Command

def main (args : List String) : IO UInt32 := do
  let report ← DotCom.Command.run DotCom.Command.realDisk args
  IO.print report.stdout
  IO.eprint report.stderr
  return report.exit.toUInt32
