import MemLint.Tree

/-! Primitives: the names that allocate, the names that release, and the names of the null
pointer. -/

namespace MemLint.Check

structure Primitives where
  alloc : List String
  free : List String
  null : List String
  deriving Repr

namespace Primitives

def default : Primitives where
  alloc := ["malloc", "calloc", "realloc", "new", "strdup"]
  free := ["free", "delete"]
  null := ["nullptr", "NULL"]

/-- The primitives and some more names. -/
def extend (p : Primitives) (alloc free null : List String) : Primitives :=
  ⟨p.alloc ++ alloc, p.free ++ free, p.null ++ null⟩

def isAlloc (p : Primitives) (name : String) : Bool := p.alloc.contains name

def isFree (p : Primitives) (name : String) : Bool := p.free.contains name

def isNull (p : Primitives) (name : String) : Bool := p.null.contains name

def isAllocCall (p : Primitives) : Expr → Bool
  | .call f _ => p.isAlloc f
  | _ => false

/-- The null pointer by name, which is no name of a pointer variable. -/
def isNullExpr (p : Primitives) : Expr → Bool
  | .ident n => p.isNull n
  | _ => false

/-- The variable that a call releases: the first argument of a call that releases, if that is a
name. -/
def freedName? (p : Primitives) (f : String) (args : List Expr) : Option String :=
  if p.isFree f then args.head?.bind Expr.name? else none

/-- Names in order, each once. -/
def sorted (names : List String) : List String :=
  names.eraseDups.mergeSort fun a b => decide (a ≤ b)

end Primitives

end MemLint.Check
