import MemLint.Check.Walk

/-! Passes: what the checks do with expressions and declared names differs, how they go through
statements and files does not. A statement and an expression each take one level of the depth.
Branches, loops and function bodies are walked on a copy of the state. -/

namespace MemLint.Check

structure Pass (σ φ : Type) where
  /-- An expression with that many levels to go. -/
  expr : Nat → Expr → Walk σ φ
  /-- A local declaration, whose initialiser has that many levels to go. -/
  declare : Nat → String → Expr → Walk σ φ
  /-- A declaration at file scope. -/
  declareGlobal : Nat → String → Expr → Walk σ φ
  /-- The state at the start of a function with the parameters. -/
  enter : List Param → σ → σ
  /-- A node of an unknown kind. -/
  unsupported : String → φ

/-- A walk for an expression that may be absent. -/
def ifExpr {σ φ : Type} (e : Expr) (w : Walk σ φ) : Walk σ φ :=
  match e with
  | .absent => .skip
  | _ => w

/-- A walk for a statement that may be absent. -/
def ifStmt {σ φ : Type} (s : Stmt) (w : Walk σ φ) : Walk σ φ :=
  match s with
  | .absent => .skip
  | _ => w

namespace Pass

variable {σ φ : Type}

/-- A statement with `depth` levels to go. -/
def stmt (p : Pass σ φ) : (depth : Nat) → Stmt → Walk σ φ
  | 0, _ => .fail .tooDeep
  | d + 1, s =>
    match s with
    | .absent => .fail .absentStmt
    | .foreign kind => .note [p.unsupported kind]
    | .block ss => .all (ss.map (p.stmt d))
    | .expr x => p.expr d x
    | .decl name init => p.declare d name init
    | .cond test yes no =>
      (p.expr d test).andThen <| (p.stmt d yes).fork.andThen <| ifStmt no (p.stmt d no).fork
    | .loop init test post body =>
      .fork <| (ifStmt init (p.stmt d init)).andThen <| (ifExpr test (p.expr d test)).andThen <|
        (p.stmt d body).andThen <| ifExpr post (p.expr d post)
    | .ret x => ifExpr x (p.expr d x)
    | .jump _ => .skip

/-- A declaration at file scope. -/
def decl (p : Pass σ φ) (depth : Nat) : Decl → Walk σ φ
  | .absent => .fail .absentDecl
  | .foreign kind => .note [p.unsupported kind]
  | .func _ params _ body =>
    ifStmt body ((Walk.update (p.enter params)).andThen (p.stmt depth body)).fork
  | .var name init => p.declareGlobal depth name init
  | .stmt s => p.stmt depth s

def stmts (p : Pass σ φ) (depth : Nat) (ss : List Stmt) : Walk σ φ := .all (ss.map (p.stmt depth))

def decls (p : Pass σ φ) (depth : Nat) (ds : List Decl) : Walk σ φ := .all (ds.map (p.decl depth))

end Pass

/-- What a finished walk noted, as diagnostics, or the error of a checker that stopped. -/
def report {σ φ : Type} (checker : String) (limit : Nat) (diagnose : φ → Diagnostic)
    (r : Except Fault (σ × List φ)) : Except StructuralError (List Diagnostic) :=
  match r with
  | .error f => .error (f.error checker limit)
  | .ok (_, xs) => .ok (xs.map diagnose)

end MemLint.Check
