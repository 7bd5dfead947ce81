import MemLint.Check.Limits

/-! Walks over a tree. A walk goes from a state to a state and notes findings on the way, or it
stops with a fault. What it notes does not depend on what was noted before. -/

namespace MemLint.Check

/-- Why a walk stops. -/
inductive Fault where
  | tooDeep
  | absentDecl
  | absentStmt
  | absentExpr
  | absentTarget
  deriving DecidableEq, Repr

/-- The error that a checker with the given limit reports for a fault. -/
def Fault.error (checker : String) (limit : Nat) : Fault → StructuralError
  | tooDeep => Check.tooDeep checker limit
  | absentDecl => ⟨checker, .malformed, "nil declaration"⟩
  | absentStmt => ⟨checker, .malformed, "nil statement"⟩
  | absentExpr => ⟨checker, .malformed, "nil expression"⟩
  | absentTarget => ⟨checker, .malformed, "assignment without target"⟩

/-- A walk with states `σ` and findings `φ`. -/
abbrev Walk (σ φ : Type) := σ → Except Fault (σ × List φ)

namespace Walk

variable {σ φ : Type}

def skip : Walk σ φ := fun s => .ok (s, [])

def fail (f : Fault) : Walk σ φ := fun _ => .error f

/-- Notes findings. -/
def note (xs : List φ) : Walk σ φ := fun s => .ok (s, xs)

def update (f : σ → σ) : Walk σ φ := fun s => .ok (f s, [])

/-- A walk that depends on the state it starts from. -/
def look (w : σ → Walk σ φ) : Walk σ φ := fun s => w s s

def andThen (v w : Walk σ φ) : Walk σ φ := fun s =>
  match v s with
  | .error f => .error f
  | .ok (s, xs) =>
    match w s with
    | .error f => .error f
    | .ok (s, ys) => .ok (s, xs ++ ys)

/-- The walk on a copy of the state: its findings stay, its state is dropped. -/
def fork (w : Walk σ φ) : Walk σ φ := fun s =>
  match w s with
  | .error f => .error f
  | .ok (_, xs) => .ok (s, xs)

/-- One walk after the other; `noted` holds, in reverse, what has been noted before. -/
def allFrom (noted : List φ) : List (Walk σ φ) → Walk σ φ
  | [], s => .ok (s, noted.reverse)
  | w :: ws, s =>
    match w s with
    | .error f => .error f
    | .ok (s, xs) => allFrom (xs.reverse ++ noted) ws s

def all (ws : List (Walk σ φ)) : Walk σ φ := allFrom [] ws

theorem allFrom_eq (noted : List φ) (ws : List (Walk σ φ)) (s : σ) :
    allFrom noted ws s = (allFrom [] ws s).map fun r => (r.1, noted.reverse ++ r.2) := by
  induction ws generalizing noted s with
  | nil => simp [allFrom, Except.map]
  | cons w ws ih =>
    simp only [allFrom]
    cases w s with
    | error f => rfl
    | ok r =>
      simp only
      rw [ih, ih (r.2.reverse ++ [])]
      cases allFrom [] ws r.1 <;> simp [Except.map]

@[simp] theorem all_nil : all ([] : List (Walk σ φ)) = skip := rfl

theorem all_cons (w : Walk σ φ) (ws : List (Walk σ φ)) : all (w :: ws) = w.andThen (all ws) := by
  funext s
  simp only [all, allFrom, andThen]
  cases w s with
  | error f => rfl
  | ok r =>
    simp only
    rw [allFrom_eq]
    cases allFrom [] ws r.1 <;> simp [Except.map]

end Walk

end MemLint.Check
