import MemLint.Settings
import MemLint.Check.Bounds
import MemLint.Check.Memory
import MemLint.Check.Pointer

/-! An analysis runs the chosen checkers over a file, one after another, and joins what they
find. -/

namespace MemLint

namespace Analysis

/-- What an analysis is told. -/
structure Plan where
  checkers : Settings.Checkers := .every
  check : Check.Options := {}

/-- A change of a plan. How many checkers may run at once, and whether records are kept, does not
change what is found. -/
inductive Change where
  | settings (s : Settings)
  | checkers (s : Settings.Checkers)
  | primitives (p : Check.Primitives)
  | maxDepth (depth : Int)
  | concurrency (count : Int)
  | logger (present : Bool)
  | nothing
  | several (changes : List Change)

mutual

def Change.apply (p : Plan) : Change → Plan
  | .settings s => ⟨s.checkers, s.check⟩
  | .checkers s => { p with checkers := s }
  | .primitives ps => { p with check.primitives := ps }
  | .maxDepth depth => { p with check.maxDepth := depth }
  | .concurrency _ | .logger _ | .nothing => p
  | .several changes => applyAll p changes

/-- Changes take effect in order. -/
def applyAll (p : Plan) : List Change → Plan
  | [] => p
  | c :: cs => applyAll (c.apply p) cs

end

mutual

/-- The named values of a change; those of changes in changes stand side by side. -/
def Change.log : Change → List (String × Log.Value)
  | .settings s => [("config", s.log)]
  | .checkers s => [("checkers", .str s.text)]
  | .primitives ps => [("primitives", ps.log)]
  | .maxDepth depth => [("maxDepth", .int depth)]
  | .concurrency count => [("concurrency", .int count)]
  | .logger present => [("logger", .bool present)]
  | .nothing => [("nil", .str "<nil>")]
  | .several changes => logAll changes

def logAll : List Change → List (String × Log.Value)
  | [] => []
  | c :: cs => c.log ++ logAll cs

end

/-- Why an analysis gives no result. -/
inductive Failure where
  | structural (e : StructuralError)
  | canceled (c : Settings.Checker)
  deriving DecidableEq, Repr

def Failure.message : Failure → String
  | structural e => e.message
  | canceled c => s!"{c.name}: context canceled"

/-- What came of an analysis, and its records. -/
structure Outcome where
  result : Except Failure (List Diagnostic)
  log : List Log.Record := []

def noCheckers : Log.Record := ⟨.warn, "no checkers enabled", []⟩

def finished (c : Settings.Checker) (ds : List Diagnostic) : Log.Record :=
  ⟨.debug, "checker finished", [("checker", .str c.name), ("diagnostics", .int ds.length)]⟩

/-- What one checker finds in a file. -/
def check (o : Check.Options) (file : List Decl) :
    Settings.Checker → Except StructuralError (List Diagnostic)
  | .bounds => Check.Bounds.analyzeFile o file
  | .memory => Check.Memory.analyzeFile o file
  | .pointer => Check.Pointer.analyzeFile o file

/-- One checker after another. The first that fails ends the run, and nothing is found then. -/
def runAll (o : Check.Options) (canceled : Bool) (file : List Decl) :
    List Settings.Checker → Outcome
  | [] => { result := .ok [] }
  | c :: cs =>
    if canceled then { result := .error (.canceled c) }
    else match check o file c with
      | .error e => { result := .error (.structural e) }
      | .ok ds =>
        let rest := runAll o canceled file cs
        { result := rest.result.map (ds ++ ·), log := finished c ds :: rest.log }

/-- Runs a plan. Without a file there is nothing to analyse. -/
def run (p : Plan) (canceled : Bool) : Option (List Decl) → Outcome
  | none => { result := .error (.structural ⟨"analyzer", .malformed, "nil file"⟩) }
  | some file =>
    let o := runAll p.check canceled file p.checkers.toList
    if p.checkers.isEmpty then { o with log := noCheckers :: o.log } else o

end Analysis

def Diagnostic.log (d : Diagnostic) : Log.Value := .group [
  ("checker", .str d.checker), ("kind", .str d.kind.name), ("name", .str d.name)]

end MemLint
