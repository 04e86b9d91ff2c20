/-
  DotCom.FunctionTable — the addresses of the functions met so far. A name is entered once and
  keeps its address.

  - `address?_of_define`: entering a name changes no other.
-/

import DotCom.CompileError

namespace DotCom

/-- Names and addresses, newest first. -/
structure FunctionTable where
  entries : List (String × UInt16) := []
  deriving DecidableEq, Repr

namespace FunctionTable

def address? (table : FunctionTable) (name : String) : Option UInt16 := table.entries.lookup name

def define (name : String) (address : UInt16) : EStateM Failure FunctionTable Unit := fun table =>
  match table.address? name with
  | some _ => .error (.rejected (.duplicateFunction name)) table
  | none => .ok () ⟨(name, address) :: table.entries⟩

/-- A new name has its address and every other name keeps what it had. -/
theorem address?_of_define {table after : FunctionTable} {name : String} {address : UInt16}
    (h : define name address table = .ok () after) (other : String) :
    after.address? other = if other = name then some address else table.address? other := by
  unfold define at h
  split at h
  · contradiction
  · injection h with _ h
    subst h
    by_cases same : other = name <;> simp [address?, List.lookup_cons, same, beq_eq_false_iff_ne.2]

end FunctionTable

end DotCom
