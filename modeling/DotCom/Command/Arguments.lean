/-
  DotCom.Command.Arguments — what the command is asked to do. Arguments are taken in order, and
  the first that is wrong or that asks for the version decides.
-/

import DotCom.Compile

namespace DotCom.Command

/-- A command line that has been understood: a file to compile, and what the options say. -/
structure Invocation where
  input : String
  output? : Option String := none
  entry : String := "main"
  capacity : Nat := Options.capacity {}
  deriving DecidableEq, Repr

inductive Request where
  | compile (i : Invocation)
  | version
  | help
  deriving DecidableEq, Repr

inductive Arg where
  /-- `--`, behind which there are no options. -/
  | escape
  | long (name : String) (value? : Option String)
  | short (name : Char) (rest : List Char)
  | plain (text : String)
  deriving DecidableEq, Repr

def Arg.ofString (s : String) : Arg :=
  match s.toList with
  | ['-', '-'] => .escape
  | '-' :: '-' :: cs =>
    let name := String.ofList (cs.takeWhile (· ≠ '='))
    match cs.dropWhile (· ≠ '=') with
    | [] => .long name none
    | _ :: value => .long name (some (String.ofList value))
  | '-' :: c :: cs => .short c cs
  | _ => .plain s

inductive Setting where
  | output
  | entry
  | capacity
  deriving DecidableEq, Repr

inductive Flag where
  | setting (s : Setting)
  | version
  | help
  deriving DecidableEq, Repr

def Flag.ofLong? : String → Option Flag
  | "output" => some (.setting .output)
  | "entry" => some (.setting .entry)
  | "capacity" => some (.setting .capacity)
  | "version" => some .version
  | "help" => some .help
  | _ => none

def Flag.ofShort? : Char → Option Flag
  | 'o' => some (.setting .output)
  | 'V' => some .version
  | 'h' => some .help
  | _ => none

/-- A number of bytes: decimal digits, perhaps behind a plus sign, in 64 bits. -/
def byteCount? (s : String) : Option Nat :=
  let digits := match s.toList with
    | '+' :: cs => cs
    | cs => cs
  if digits.isEmpty || !digits.all Char.isDigit then none
  else
    let n := Token.decimal digits
    if n ≤ Image.maxSize then some n else none

structure Draft where
  input? : Option String := none
  output? : Option String := none
  entry? : Option String := none
  capacity? : Option Nat := none
  deriving DecidableEq, Repr

namespace Draft

/-- Takes the name of the input; there is one, and it is not empty. -/
def addInput (d : Draft) (path : String) : Option Draft :=
  if d.input?.isSome || path.isEmpty then none else some { d with input? := some path }

/-- Takes the value of an option, which is given once. -/
def put (d : Draft) (s : Setting) (value : String) : Option Draft :=
  match s with
  | .output =>
    if d.output?.isSome || value.isEmpty then none else some { d with output? := some value }
  | .entry => if d.entry?.isSome then none else some { d with entry? := some value }
  | .capacity =>
    if d.capacity?.isSome then none
    else (byteCount? value).map fun n => { d with capacity? := some n }

def request? (d : Draft) : Option Request :=
  d.input?.map fun input =>
    let std : Invocation := { input }
    .compile { std with
      output? := d.output?
      entry := d.entry?.getD std.entry
      capacity := d.capacity?.getD std.capacity }

end Draft

def readArgs (d : Draft) : List String → Option Request
  | [] => d.request?
  | a :: rest =>
    match Arg.ofString a with
    | .escape => (rest.foldlM Draft.addInput d).bind Draft.request?
    | .plain path => (d.addInput path).bind fun d => readArgs d rest
    | .long name (some value) =>
      match Flag.ofLong? name with
      | some (.setting s) => (d.put s value).bind fun d => readArgs d rest
      | _ => none
    | .long name none => take d (Flag.ofLong? name) rest
    | .short name value =>
      match Flag.ofShort? name, value with
      | some (.setting s), '=' :: cs => (d.put s (String.ofList cs)).bind fun d => readArgs d rest
      | some (.setting s), c :: cs => (d.put s (String.ofList (c :: cs))).bind fun d => readArgs d rest
      | flag?, _ => take d flag? rest
where
  /-- Takes a flag; the value of an option is then the next argument. -/
  take (d : Draft) : Option Flag → List String → Option Request
    | some .version, _ => some .version
    | some .help, _ => some .help
    | some (.setting s), value :: rest =>
      match Arg.ofString value with
      | .plain value => (d.put s value).bind fun d => readArgs d rest
      | _ => none
    | _, _ => none

def request? (args : List String) : Option Request := readArgs {} args

end DotCom.Command
