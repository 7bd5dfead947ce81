/-! Diagnostics: suspected defects. The tree has no places, so a name is all that locates one. -/

namespace MemLint

namespace Diagnostic

inductive Kind where
  | outOfBounds
  | memoryLeak
  | doubleFree
  | invalidFree
  | uninitializedAccess
  | nullPointerDereference
  | incorrectNumberOfArguments
  | nonPointerArgumentForPointerParameter
  /-- A node that a check does not know. -/
  | unsupported
  /-- A kind without a name of its own. -/
  | other (code : Nat)
  deriving DecidableEq, Repr

namespace Kind

/-- The kinds with a name, in the order of their codes. -/
def declared : List Kind := [
  outOfBounds, memoryLeak, doubleFree, invalidFree, uninitializedAccess, nullPointerDereference,
  incorrectNumberOfArguments, nonPointerArgumentForPointerParameter, unsupported]

def code : Kind → Nat
  | outOfBounds => 0
  | memoryLeak => 1
  | doubleFree => 2
  | invalidFree => 3
  | uninitializedAccess => 4
  | nullPointerDereference => 5
  | incorrectNumberOfArguments => 6
  | nonPointerArgumentForPointerParameter => 7
  | unsupported => 8
  | other code => code

def ofCode (code : Nat) : Kind := declared[code]?.getD (other code)

def name : Kind → String
  | outOfBounds => "OutOfBounds"
  | memoryLeak => "MemoryLeak"
  | doubleFree => "DoubleFree"
  | invalidFree => "InvalidFree"
  | uninitializedAccess => "UninitializedAccess"
  | nullPointerDereference => "NullPointerDereference"
  | incorrectNumberOfArguments => "IncorrectNumberOfArguments"
  | nonPointerArgumentForPointerParameter => "NonPointerArgumentForPointerParameter"
  | unsupported => "Unsupported"
  | other code => s!"Kind({code})"

end Kind

end Diagnostic

structure Diagnostic where
  checker : String
  kind : Diagnostic.Kind
  name : String
  message : String
  deriving DecidableEq, Repr

namespace Diagnostic

/-- A checker met a node of a kind that it does not know. -/
def unsupportedNode (checker kind : String) : Diagnostic :=
  ⟨checker, .unsupported, "", s!"{checker}: unsupported node {kind} skipped"⟩

/-- How many diagnostics are of a kind. -/
def count (ds : List Diagnostic) (k : Kind) : Nat := ds.countP (·.kind = k)

end Diagnostic

/-- What makes a tree unfit for a check. -/
inductive Defect where
  | malformed
  | tooDeep
  deriving DecidableEq, Repr

def Defect.message : Defect → String
  | malformed => "malformed syntax tree"
  | tooDeep => "syntax tree nested too deep"

/-- A check that could not be finished. -/
structure StructuralError where
  checker : String
  defect : Defect
  detail : String
  deriving DecidableEq, Repr

def StructuralError.message (e : StructuralError) : String :=
  if e.detail = "" then s!"{e.checker}: {e.defect.message}"
  else s!"{e.checker}: {e.defect.message}: {e.detail}"

end MemLint
