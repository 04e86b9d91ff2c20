/-
  DotCom.Command.Path — the file name at the end of a path and its extension. Slashes and single
  dots at the end do not count; a path that ends in `..` or has nothing left names no file. A dot
  in front of a name starts no extension.
-/

namespace DotCom.Command

/-- The end of a path: what stands before the file name, the name up to its last dot, and what
    follows that dot. -/
structure FileName where
  parent : List Char
  stem : List Char
  ext? : Option (List Char)
  deriving DecidableEq, Repr

/-- Takes slashes and single dots off the end of a reversed path. -/
def trimEnd : List Char → List Char
  | '/' :: r => trimEnd r
  | '.' :: '/' :: r => trimEnd r
  | ['.'] => []
  | r => r

def splitName (parent name : List Char) : FileName :=
  match name.dropWhile (· ≠ '.') with
  | _ :: c :: cs => ⟨parent, (c :: cs).reverse, some (name.takeWhile (· ≠ '.')).reverse⟩
  | _ => ⟨parent, name.reverse, none⟩

def fileName? (path : List Char) : Option FileName :=
  let r := trimEnd path.reverse
  let name := r.takeWhile (· ≠ '/')
  if name = [] ∨ name = ['.', '.'] then none
  else some (splitName (r.dropWhile (· ≠ '/')).reverse name)

def setExtension (path ext : List Char) : List Char :=
  match fileName? path with
  | some n => n.parent ++ n.stem ++ '.' :: ext
  | none => path

/-- A path with the extension of its file name replaced. The old extension is first cut off the
    end; what is left may name no file any more, and then it is the result. -/
def withExtension (path ext : List Char) : List Char :=
  match (fileName? path).bind FileName.ext? with
  | some old => setExtension (path.take (path.length - old.length)) ext
  | none => setExtension path ext

end DotCom.Command
