import MemLint.Tree

/-! Small programs, each as a text and as statements. -/

namespace MemLint

structure Scenario where
  name : String
  source : String
  statements : List Stmt

namespace Scenario

def allocated : Expr := .call "new" []

def release (name : String) : Stmt := .expr (.call "delete" [.varRef name])

def target (name : String) : Expr := .deref (.varRef name)

/-- The array has three places and the sixth is looked at. -/
def outOfBounds : Scenario where
  name := "out of bounds"
  source := "int a[3]; a[5];"
  statements := [.expr (.arrayDecl "a" (.intLit 3)), .expr (.index "a" (.intLit 5))]

/-- Nothing is wrong. -/
def cleanLifecycle : Scenario where
  name := "clean lifecycle"
  source := "int *x = new int; *x = 42; int y = *x; delete x;"
  statements := [
    .decl "x" allocated, .expr (.assign (target "x") (.intLit 42)), .decl "y" (target "x"),
    release "x"]

def doubleFree : Scenario where
  name := "double free"
  source := "int *x = new int; delete x; delete x;"
  statements := [.decl "x" allocated, release "x", release "x"]

def nullDereference : Scenario where
  name := "null dereference"
  source := "int *x = nullptr; int y = *x;"
  statements := [.decl "x" (.ident "nullptr"), .decl "y" (target "x")]

/-- A read between the allocation and the two releases. -/
def readThenDoubleFree : Scenario where
  name := "read then double free"
  source := "int *x = new int; int y = *x; delete x; delete x;"
  statements := [.decl "x" allocated, .decl "y" (target "x"), release "x", release "x"]

def all : List Scenario :=
  [outOfBounds, cleanLifecycle, doubleFree, nullDereference, readThenDoubleFree]

end Scenario

end MemLint
