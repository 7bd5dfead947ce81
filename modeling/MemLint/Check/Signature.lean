import MemLint.Tree
import MemLint.Table

/-! Signatures: what a file declares about the calls of its functions. -/

namespace MemLint.Check

structure Signature where
  /-- For each parameter, whether it is a pointer. -/
  pointer : List Bool
  /-- The result is a pointer. -/
  returns : Bool
  deriving DecidableEq, Repr

abbrev Signatures := Table Signature

/-- The signatures of the functions and prototypes of a file. A later declaration of a name
replaces an earlier one. -/
def signatures (ds : List Decl) : Signatures :=
  ds.foldl (fun sigs d =>
    match d with
    | .func name params ret _ => sigs.set name ⟨params.map Param.isPointer, ret.isPointer⟩
    | _ => sigs) .empty

end MemLint.Check
