import MemLint.Check.Pass
import MemLint.Table

/-! The memory check: the life of what a name holds. A name may hold an allocation, which may have
been freed; it may have no value yet; it may hold null. Assigning a name to a name copies what is
known. Freeing a name that holds no allocation is accepted here. -/

namespace MemLint.Check.Memory

/-- What is known of a name. -/
structure Marks where
  allocated : Bool := false
  freed : Bool := false
  uninit : Bool := false
  null : Bool := false
  deriving DecidableEq, Repr

abbrev State := Table Marks

/-- What is known of a name; of a name without an entry nothing is. -/
def marks (s : State) (name : String) : Marks := (s.get? name).getD {}

@[simp] theorem marks_set (s : State) (name other : String) (m : Marks) :
    marks (s.set name m) other = if other = name then m else marks s other := by
  simp only [marks, Table.get?_set]
  split <;> rfl

@[simp] theorem marks_erase (s : State) (name other : String) :
    marks (s.erase name) other = if other = name then {} else marks s other := by
  simp only [marks, Table.get?_erase]
  split <;> rfl

inductive Finding where
  | leak (name : String)
  | doubleFree (name : String)
  | uninitialized (name : String)
  | nullDereference (name : String)
  | unsupported (kind : String)
  deriving DecidableEq, Repr

def checker : String := "memory"

def Finding.diagnostic : Finding → Diagnostic
  | leak name => ⟨checker, .memoryLeak, name,
      s!"Memory leak: '{name}' is reallocated before its previous allocation was freed"⟩
  | doubleFree name => ⟨checker, .doubleFree, name,
      s!"Double free attempt on variable: {name}"⟩
  | uninitialized name => ⟨checker, .uninitializedAccess, name,
      s!"Uninitialized memory access of variable: {name}"⟩
  | nullDereference name => ⟨checker, .nullPointerDereference, name,
      s!"Null pointer dereference detected for variable: {name}"⟩
  | unsupported kind => .unsupportedNode checker kind

/-! ### What happens to a name -/

def read (name : String) : Walk State Finding := .look fun s =>
  if (marks s name).uninit then .note [.uninitialized name] else .skip

/-- A name is read and then used as an address. -/
def deref (name : String) : Walk State Finding :=
  (read name).andThen <| .look fun s =>
    if (marks s name).null then .note [.nullDereference name] else .skip

def free (name : String) : Walk State Finding := .look fun s =>
  let m := marks s name
  if m.freed then .note [.doubleFree name]
  else if m.allocated then .update (·.set name { m with freed := true })
  else .skip

/-- The value hands the block of `name` over, as in `p = realloc(p, n)`. -/
def resizes (name : String) : Expr → Bool
  | .call _ (arg :: _) => arg.name? == some name
  | _ => false

/-- A name takes a fresh allocation; one that it still holds is lost. -/
def allocate (name : String) (value : Expr) : Walk State Finding := .look fun s =>
  let m := marks s name
  let lost := m.allocated && !m.freed && !resizes name value
  (if lost then Walk.note [.leak name] else .skip).andThen
    (.update (·.set name { allocated := true }))

/-- The name whose state a value carries. -/
def source? : Expr → Option String
  | .assign target _ => source? target
  | e => e.name?

/-- Gives `name` what the value brings; `visit` walks the value. -/
def bind (p : Primitives) (visit : Expr → Walk State Finding) (name : String) (value : Expr) :
    Walk State Finding :=
  if p.isAllocCall value then (visit value).andThen (allocate name value)
  else if p.isNullExpr value then .update (·.set name { null := true })
  else (visit value).andThen <|
    match source? value with
    | none => .update (·.erase name)
    | some other => if other = name then .skip else .update fun s => s.set name (marks s other)

/-! ### Expressions and declarations -/

/-- An assignment. What it goes through is read after the value. -/
def assign (p : Primitives) (visit : Expr → Walk State Finding) (target value : Expr) :
    Walk State Finding :=
  match target with
  | .ident name | .varRef name => bind p visit name value
  | .deref _ | .index .. => (visit value).andThen (visit target)
  | .absent => .fail .absentTarget
  | _ => (Walk.note [.unsupported target.kindName]).andThen (visit value)

def expr (p : Primitives) : (depth : Nat) → Expr → Walk State Finding
  | 0, _ => .fail .tooDeep
  | d + 1, e =>
    match e with
    | .absent => .fail .absentExpr
    | .foreign kind => .note [.unsupported kind]
    | .intLit _ | .stringLit _ => .skip
    | .ident name | .varRef name => read name
    | .addr name => .update fun s => s.set name { marks s name with uninit := false }
    | .deref x =>
      match x.name? with
      | some name => deref name
      | none => expr p d x
    | .index name i => (deref name).andThen (expr p d i)
    | .arrayDecl name size => (expr p d size).andThen (.update (·.erase name))
    | .call f args =>
      match p.freedName? f args with
      | some name => (read name).andThen (free name)
      | none => .all (args.map (expr p d))
    | .binary _ left right => (expr p d left).andThen (expr p d right)
    | .assign target value => assign p (expr p d) target value

/-- A local variable without a value is not initialised. -/
def declare (p : Primitives) (d : Nat) (name : String) (init : Expr) : Walk State Finding :=
  match init with
  | .absent => .update (·.set name { uninit := true })
  | _ => bind p (expr p d) name init

/-- A variable at file scope without a value is zero. -/
def declareGlobal (p : Primitives) (d : Nat) (name : String) (init : Expr) : Walk State Finding :=
  match init with
  | .absent => .update (·.set name { null := true })
  | _ => bind p (expr p d) name init

def pass (p : Primitives) : Pass State Finding where
  expr := expr p
  declare := declare p
  declareGlobal := declareGlobal p
  enter params s := params.foldl (fun s prm => s.erase prm.name) s
  unsupported := .unsupported

def analyze (o : Options) (ss : List Stmt) : Except StructuralError (List Diagnostic) :=
  report checker o.depth Finding.diagnostic ((pass o.primitives).stmts o.depth ss .empty)

def analyzeFile (o : Options) (ds : List Decl) : Except StructuralError (List Diagnostic) :=
  report checker o.depth Finding.diagnostic ((pass o.primitives).decls o.depth ds .empty)

end MemLint.Check.Memory
