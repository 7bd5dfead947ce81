import MemLint.Settings.Checkers
import MemLint.Settings.Format
import MemLint.Settings.Layout
import MemLint.Check.Limits
import MemLint.Log

/-! The settings of an analysis: which checkers run, the form of the report, and what the checks are
told. A document extends the defaults. -/

namespace MemLint

structure Settings where
  checkers : Settings.Checkers := .every
  format : Settings.Format := .text
  check : Check.Options := { maxDepth := Check.defaultDepth }

namespace Settings

/-- Why settings are refused. -/
inductive Error where
  | unreadable
  | badLayout (problems : Problems)
  | negativeDepth (depth : Int)
  | unknownChecker (name : String)
  | unknownFormat (name : String)
  deriving DecidableEq, Repr

def Error.message : Error → String
  | unreadable => s!"decode config: {Layout.Refusal.unreadable.message}"
  | badLayout ps => s!"decode config: {(Layout.Refusal.problems ps).message}"
  | negativeDepth depth => s!"max_depth must not be negative, got {depth}"
  | unknownChecker name => s!"unknown checker: {Text.quoted name}"
  | unknownFormat name => s!"unknown output format: {Text.quoted name}"

def checkersOf (names : List String) : Except Error Checkers :=
  (Checkers.ofNames names).mapError .unknownChecker

def formatOf (name : String) : Except Error Format :=
  match Format.ofText? name with
  | some f => .ok f
  | none => .error (.unknownFormat name)

/-- The defaults with what a layout says. Of several faults the depth comes first, then the
checkers, then the format. An empty list of checkers and an empty format say nothing. -/
def ofLayout (l : Layout) : Except Error Settings := do
  let s : Settings := {}
  if l.maxDepth < 0 then throw (.negativeDepth l.maxDepth)
  let checkers ← if l.checkers.isEmpty then pure s.checkers else checkersOf l.checkers
  let format ← if l.format.isEmpty then pure s.format else formatOf l.format
  return {
    checkers, format
    check := {
      primitives := s.check.primitives.extend l.allocators l.deallocators l.nulls
      maxDepth := if l.maxDepth = 0 then s.check.maxDepth else l.maxDepth } }

/-- Reads a settings document. A text without one says nothing. -/
def parse (text : String) : Except Error Settings :=
  match Layout.ofText text with
  | .error .unreadable | .error .badMerge => .error .unreadable
  | .error (.problems ps) => .error (.badLayout ps)
  | .ok l => ofLayout (l.getD {})

end Settings

/-! ### As log values -/

def Check.Primitives.log (p : Check.Primitives) : Log.Value := .group [
  ("alloc", .list (Check.Primitives.sorted p.alloc)),
  ("free", .list (Check.Primitives.sorted p.free)),
  ("null", .list (Check.Primitives.sorted p.null))]

def Settings.log (s : Settings) : Log.Value := .group [
  ("checkers", .str s.checkers.text),
  ("format", .str s.format.name),
  ("max_depth", .int s.check.depth),
  ("primitives", s.check.primitives.log)]

end MemLint
