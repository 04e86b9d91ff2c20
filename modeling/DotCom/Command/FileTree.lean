/-
  DotCom.Command.FileTree — the files under a working directory, and what reading and writing a
  path does to them. A directory is there when a file lies below it. What lies outside the
  working directory is not looked at: its directories exist and hold nothing.

  A whole file is read or written, or nothing happens and there is a reason.
-/

namespace DotCom.Command

inductive DiskError where
  | notFound
  | isDirectory
  | notDirectory
  | other (why : String)
  deriving DecidableEq, Repr

namespace DiskError

def message : DiskError → String
  | notFound => "No such file or directory (os error 2)"
  | isDirectory => "Is a directory (os error 21)"
  | notDirectory => "Not a directory (os error 20)"
  | other why => why

end DiskError

/-- Files by their names, each the directories on the way and the last name. -/
structure FileTree where
  files : List (List String × Array UInt8)
  deriving DecidableEq, Repr

namespace FileTree

def file? (t : FileTree) (name : List String) : Option (Array UInt8) := t.files.lookup name

def isDirectory (t : FileTree) (name : List String) : Bool :=
  name.isEmpty || t.files.any fun f => name.isPrefixOf f.1 && name != f.1

inductive Place where
  | file (name : List String)
  | directory
  /-- A name that is free in a directory that is there. -/
  | vacant (name : List String)
  deriving DecidableEq, Repr

/-- A directory on the way along a path: one of the tree, or one outside. -/
abbrev Dir := Option (List String)

/-- The place that the parts of a path lead to from a directory. -/
def walk (t : FileTree) : Dir → List String → Except DiskError Place
  | _, [] => .ok .directory
  | dir, part :: rest =>
    if part = "" ∨ part = "." then walk t dir rest
    else if part = ".." then
      match dir with
      | some (d :: ds) => walk t (some (d :: ds).dropLast) rest
      | _ => walk t none rest
    else
      match dir with
      | none => .error .notFound
      | some ds =>
        let name := ds ++ [part]
        if (t.file? name).isSome then
          if rest.isEmpty then .ok (.file name) else .error .notDirectory
        else if t.isDirectory name then walk t (some name) rest
        else if rest.isEmpty then .ok (.vacant name)
        else .error .notFound

def parts (path : String) : List String := (path.toList.splitOn '/').map String.ofList

/-- Where a path starts: an absolute one starts outside. -/
def start (path : String) : Dir := if path.startsWith "/" then none else some []

def read (t : FileTree) (path : String) : Except DiskError (Array UInt8) := do
  match ← t.walk (start path) (parts path) with
  | .file name =>
    match t.file? name with
    | some bytes => return bytes
    | none => throw .notFound
  | .directory => throw .isDirectory
  | .vacant _ => throw .notFound

def put (t : FileTree) (name : List String) (bytes : Array UInt8) : FileTree :=
  ⟨(name, bytes) :: t.files.filter (·.1 != name)⟩

/-- Writes a file. A path that ends in a slash can only mean a directory, in a directory that
    is there. -/
def write (t : FileTree) (path : String) (bytes : Array UInt8) : Except DiskError FileTree := do
  let ps := parts path
  let named := (ps.reverse.dropWhile (· == "")).reverse
  if named.length < ps.length then
    match ← t.walk (start path) named.dropLast with
    | .directory => throw .isDirectory
    | .file _ => throw .notDirectory
    | .vacant _ => throw .notFound
  match ← t.walk (start path) ps with
  | .file name => return t.put name bytes
  | .directory => throw .isDirectory
  | .vacant name => return t.put name bytes

end FileTree

end DotCom.Command
