import MemLint.Diagnostic
import MemLint.Report.Json

/-! Reports: what was found in a file, as lines of text or as JSON. -/

namespace MemLint

structure Report where
  /-- The name of the file, as it was given. -/
  file : Text.Raw
  diagnostics : List Diagnostic
  deriving DecidableEq, Repr

namespace Report

def isClean (r : Report) : Bool := r.diagnostics.isEmpty

/-- How a report looks as text. -/
structure Style where
  /-- Every diagnostic and not only the first. -/
  all : Bool := false
  color : Bool := false

def Style.start (s : Style) : String := if s.color then "\x1b[1;31mError:\x1b[0m" else "Error:"

def lines (s : Style) (r : Report) : List String :=
  if r.isClean then ["No memory issues detected.\n"]
  else (if s.all then r.diagnostics else r.diagnostics.take 1).map fun d =>
    s!"{s.start} {d.message}\n"

def diagnosticJson (d : Diagnostic) : Json := .object [
  ("checker", .str d.checker), ("kind", .str d.kind.name), ("name", .str d.name),
  ("message", .str d.message)]

def json (r : Report) : Json := .object [
  ("file", .str r.file), ("ok", .bool r.isClean),
  ("diagnostics", .list (r.diagnostics.map diagnosticJson))]

end Report

end MemLint
