import MemLint.Check.Pass
import MemLint.Check.Signature

/-! The pointer check: a name is live, dead or unknown. Only a live name may be dereferenced, and
only one that is known may be freed. Calls are held against the signatures of the file. -/

namespace MemLint.Check.Pointer

inductive Hold where
  | live
  | dead
  deriving DecidableEq, Repr

def Hold.name : Hold → String
  | live => "Allocated"
  | dead => "Deallocated"

/-- The state that belongs to a code; only the first code means a live name. -/
def Hold.ofCode : Nat → Hold
  | 0 => live
  | _ => dead

abbrev State := Table Hold

inductive Finding where
  | nullDereference (name : String)
  | invalidFree (name : String)
  | doubleFree (name : String)
  | argumentCount (f : String) (expected got : Nat)
  | nonPointer (f : String) (position : Nat)
  | unsupported (kind : String)
  deriving DecidableEq, Repr

def checker : String := "pointer"

def Finding.diagnostic : Finding → Diagnostic
  | nullDereference name => ⟨checker, .nullPointerDereference, name,
      s!"Null dereference of pointer '{name}'"⟩
  | invalidFree name => ⟨checker, .invalidFree, name, s!"Invalid free of pointer '{name}'"⟩
  | doubleFree name => ⟨checker, .doubleFree, name, s!"Double free of pointer '{name}'"⟩
  | argumentCount f expected got => ⟨checker, .incorrectNumberOfArguments, f,
      s!"Incorrect number of arguments in call to '{f}': expected {expected}, got {got}"⟩
  | nonPointer f position => ⟨checker, .nonPointerArgumentForPointerParameter, f,
      s!"Non-pointer argument {position} passed for pointer parameter of '{f}'"⟩
  | unsupported kind => .unsupportedNode checker kind

/-- What a walk can look up. -/
structure Context where
  primitives : Primitives
  signatures : Signatures

namespace Context

variable (c : Context)

/-- A call of the function gives a pointer. -/
def givesPointer (f : String) : Bool :=
  c.primitives.isAlloc f || ((c.signatures.get? f).map (·.returns)).getD false

/-- The name is live. A name of the null pointer never is. -/
def isLive (s : State) (name : String) : Bool :=
  s.get? name == some .live && !c.primitives.isNull name

/-- The expression may be passed for a pointer. -/
def isPointer (s : State) : Expr → Bool
  | .varRef _ | .addr _ | .deref _ | .stringLit _ => true
  | .ident name => c.primitives.isNull name || c.isLive s name
  | .call f _ => c.givesPointer f
  | .assign _ value => isPointer s value
  | .binary .add left _ | .binary .sub left _ => isPointer s left
  | _ => false

/-- What a variable holds after it was given the expression. -/
def produces (s : State) : Expr → Hold
  | .addr _ | .deref _ | .stringLit _ => .live
  | .ident name | .varRef name => if c.isLive s name then .live else .dead
  | .call f _ => if c.givesPointer f then .live else .dead
  | .assign _ value => produces s value
  | .binary .add left _ | .binary .sub left _ =>
    if c.isPointer s left then produces s left else .dead
  | _ => .dead

/-! ### What happens to a name -/

def deref (name : String) : Walk State Finding := .look fun s =>
  if c.isLive s name then .skip else .note [.nullDereference name]

def free (name : String) : Walk State Finding := .look fun s =>
  match s.get? name with
  | none => .note [.invalidFree name]
  | some .dead => .note [.doubleFree name]
  | some .live => .update (·.set name .dead)

/-- Gives `name` what the value brings; `visit` walks the value. -/
def bind (visit : Expr → Walk State Finding) (name : String) (value : Expr) :
    Walk State Finding :=
  (visit value).andThen <| .update fun s => s.set name (c.produces s value)

/-! ### Expressions and declarations -/

/-- The arguments that are no pointers where the signature wants one, by their position. -/
def nonPointers (s : State) (f : String) (pointer : List Bool) (args : List Expr) : List Finding :=
  ((pointer.zip args).zipIdx 1).filterMap fun ((wanted, arg), i) =>
    if wanted && !c.isPointer s arg then some (.nonPointer f i) else none

/-- A call is held against the signature of the function, if it has one. -/
def checkCall (f : String) (args : List Expr) : Walk State Finding := .look fun s =>
  match c.signatures.get? f with
  | none => .skip
  | some sig =>
    if args.length = sig.pointer.length then .note (c.nonPointers s f sig.pointer args)
    else .note [.argumentCount f sig.pointer.length args.length]

/-- A call that releases a name does nothing else; the null pointer may be released. -/
def call (visit : Expr → Walk State Finding) (f : String) (args : List Expr) :
    Walk State Finding :=
  match c.primitives.freedName? f args with
  | some name => if c.primitives.isNull name then .skip else free name
  | none => (Walk.all (args.map visit)).andThen (c.checkCall f args)

/-- An assignment. What it goes through is used after the value. -/
def assign (visit : Expr → Walk State Finding) (target value : Expr) : Walk State Finding :=
  match target with
  | .ident name | .varRef name => c.bind visit name value
  | .deref _ | .index .. => (visit value).andThen (visit target)
  | .absent => .fail .absentTarget
  | _ => (Walk.note [.unsupported target.kindName]).andThen (visit value)

def expr : (depth : Nat) → Expr → Walk State Finding
  | 0, _ => .fail .tooDeep
  | d + 1, e =>
    match e with
    | .absent => .fail .absentExpr
    | .foreign kind => .note [.unsupported kind]
    | .ident _ | .varRef _ | .addr _ | .intLit _ | .stringLit _ => .skip
    | .deref x =>
      match x.name? with
      | some name => c.deref name
      | none => expr d x
    | .index name i => (expr d i).andThen (c.deref name)
    | .arrayDecl name size => (expr d size).andThen (.update (·.set name .live))
    | .call f args => c.call (expr d) f args
    | .binary _ left right => (expr d left).andThen (expr d right)
    | .assign target value => c.assign (expr d) target value

/-- A variable without a value is unknown. -/
def declare (d : Nat) (name : String) (init : Expr) : Walk State Finding :=
  match init with
  | .absent => .update (·.erase name)
  | _ => c.bind (c.expr d) name init

/-- Parameters that are pointers are live in the body, the others unknown. -/
def enter (params : List Param) (s : State) : State :=
  params.foldl (fun s p => if p.isPointer then s.set p.name .live else s.erase p.name) s

def pass : Pass State Finding where
  expr := c.expr
  declare := c.declare
  declareGlobal := c.declare
  enter := enter
  unsupported := .unsupported

end Context

def analyzeFile (o : Options) (ds : List Decl) : Except StructuralError (List Diagnostic) :=
  let c : Context := ⟨o.primitives, signatures ds⟩
  report checker o.depth Finding.diagnostic (c.pass.decls o.depth ds .empty)

/-- Statements are checked as declarations at file scope. -/
def analyze (o : Options) (ss : List Stmt) : Except StructuralError (List Diagnostic) :=
  analyzeFile o (ss.map Decl.ofStmt)

end MemLint.Check.Pointer
