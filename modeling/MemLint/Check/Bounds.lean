import MemLint.Check.Pass
import MemLint.Table

/-! The bounds check: a literal index against the capacity of the array it is declared with. Only
integer literals are looked at, as sizes and as indices. -/

namespace MemLint.Check.Bounds

/-- The capacities of the arrays that are known. -/
abbrev Capacities := Table Int

inductive Finding where
  | outOfBounds (name : String) (index capacity : Int)
  | unsupported (kind : String)
  deriving DecidableEq, Repr

def checker : String := "bounds"

def Finding.diagnostic : Finding → Diagnostic
  | outOfBounds name index capacity => ⟨checker, .outOfBounds, name,
      s!"Array access out of bounds for '{name}': index {index}, capacity {capacity}"⟩
  | unsupported kind => .unsupportedNode checker kind

/-- An array is declared. A size that is no literal, or a negative one, says nothing. -/
def declareArray (name : String) (size : Expr) : Walk Capacities Finding :=
  match size with
  | .intLit n => if 0 ≤ n then .update (·.set name n) else .skip
  | _ => .skip

/-- An array is indexed. -/
def access (name : String) (i : Expr) : Walk Capacities Finding := .look fun caps =>
  match caps.get? name, i with
  | some capacity, .intLit n =>
    if n < 0 ∨ capacity ≤ n then .note [.outOfBounds name n capacity] else .skip
  | _, _ => .skip

def expr : (depth : Nat) → Expr → Walk Capacities Finding
  | 0, _ => .fail .tooDeep
  | d + 1, e =>
    match e with
    | .absent => .fail .absentExpr
    | .foreign kind => .note [.unsupported kind]
    | .ident _ | .varRef _ | .addr _ | .intLit _ | .stringLit _ => .skip
    | .arrayDecl name size => (expr d size).andThen (declareArray name size)
    | .index name i => (expr d i).andThen (access name i)
    | .call _ args => .all (args.map (expr d))
    | .deref x => expr d x
    | .binary _ left right => (expr d left).andThen (expr d right)
    | .assign target value => (expr d target).andThen (expr d value)

/-- A variable that is no array hides an array of its name. -/
def declare (d : Nat) (name : String) (init : Expr) : Walk Capacities Finding :=
  (ifExpr init (expr d init)).andThen (.update (·.erase name))

def pass : Pass Capacities Finding where
  expr := expr
  declare := declare
  declareGlobal := declare
  enter params caps := params.foldl (fun caps p => caps.erase p.name) caps
  unsupported := .unsupported

def analyze (o : Options) (ss : List Stmt) : Except StructuralError (List Diagnostic) :=
  report checker o.depth Finding.diagnostic (pass.stmts o.depth ss .empty)

def analyzeFile (o : Options) (ds : List Decl) : Except StructuralError (List Diagnostic) :=
  report checker o.depth Finding.diagnostic (pass.decls o.depth ds .empty)

end MemLint.Check.Bounds
