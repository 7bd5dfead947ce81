import MemLint.Table
import MemLint.Tree

/-! Scopes: which names are declared, and whether they hold a pointer. There is always a scope to
declare a name in. -/

namespace MemLint.Grammar

structure Scopes where
  inner : Table Bool
  outer : List (Table Bool)

namespace Scopes

/-- The scope of a file. -/
def file : Scopes := ⟨.empty, []⟩

def push (s : Scopes) : Scopes := ⟨.empty, s.inner :: s.outer⟩

def declare (s : Scopes) (name : String) (pointer : Bool) : Scopes :=
  { s with inner := s.inner.set name pointer }

/-- What the innermost declaration of a name says, or that it holds no pointer. -/
def isPointer (s : Scopes) (name : String) : Bool :=
  ((s.inner :: s.outer).findSome? (·.get? name)).getD false

/-- A reference to a name. -/
def ref (s : Scopes) (name : String) : Expr :=
  if s.isPointer name then .varRef name else .ident name

/-- The scope of a function body around its parameters. -/
def enter (s : Scopes) (params : List Param) : Scopes :=
  params.foldl (fun s p => if p.name = "" then s else s.declare p.name p.isPointer) s.push

end Scopes

end MemLint.Grammar
