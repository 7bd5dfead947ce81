import MemLint.Check.Primitives
import MemLint.Diagnostic

/-! How deep a check follows the tree. -/

namespace MemLint.Check

/-- The depth when none is set. -/
def defaultDepth : Nat := 1000

/-- What all checks are told. A depth that is not positive stands for the default. -/
structure Options where
  primitives : Primitives := .default
  maxDepth : Int := 0
  deriving Repr

def Options.depth (o : Options) : Nat := if o.maxDepth ≤ 0 then defaultDepth else o.maxDepth.toNat

/-- The error of a check that went deeper than the limit. -/
def tooDeep (checker : String) (limit : Nat) : StructuralError :=
  ⟨checker, .tooDeep, s!"limit {limit}"⟩

/-- A count of levels. Leaving is not tested, so the count can fall below zero. -/
structure Guard where
  checker : String
  limit : Nat
  depth : Int := 0

namespace Guard

/-- One level down; at the limit the count stays. -/
def enter (g : Guard) : Except StructuralError Guard :=
  if g.depth < g.limit then .ok { g with depth := g.depth + 1 }
  else .error (tooDeep g.checker g.limit)

def leave (g : Guard) : Guard := { g with depth := g.depth - 1 }

end Guard

end MemLint.Check
