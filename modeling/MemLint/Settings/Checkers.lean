import MemLint.Settings.Flags
import MemLint.Text.Blank
import MemLint.Text.Lower
import MemLint.Text.Pieces
import MemLint.Text.Quoted

/-! The checkers that run, chosen by name. -/

namespace MemLint.Settings

inductive Checker where
  | bounds
  | memory
  | pointer
  deriving DecidableEq, Repr

namespace Checker

/-- The checkers in the order in which they run. -/
def all : List Checker := [bounds, memory, pointer]

def name : Checker → String
  | bounds => "bounds"
  | memory => "memory"
  | pointer => "pointer"

def flag : Checker → BitVec 8
  | bounds => 1#8
  | memory => 2#8
  | pointer => 4#8

def ofName? (name : String) : Option Checker := all.find? (·.name = name)

end Checker

/-- A choice of checkers. Flags of no checker choose nothing, but the choice is then not empty. -/
abbrev Checkers := Flags 8

namespace Checkers

def every : Checkers := .ofList (Checker.all.map Checker.flag)

def has (s : Checkers) (c : Checker) : Bool := s.enabled c.flag

/-- The chosen checkers, in the order in which they run. -/
def toList (s : Checkers) : List Checker := Checker.all.filter s.has

def text (s : Checkers) : String := ",".intercalate (s.toList.map Checker.name)

/-- What one piece of a list of names adds: nothing if it is blank. White space around it and case
do not count. The error is the name that is unknown. -/
def piece (s : Checkers) (cs : List Char) : Except String Checkers :=
  let name := Text.lower (String.ofList (Text.strip Text.isBlank cs))
  if name = "" then .ok s
  else if name = "all" then .ok ⟨s.bits ||| every.bits⟩
  else match Checker.ofName? name with
    | some c => .ok (s.enable c.flag)
    | none => .error name

/-- Reads names. Each text may hold several, between commas. -/
def ofNames (names : List String) : Except String Checkers :=
  (names.flatMap fun n => Text.pieces ',' n.toList).foldlM piece Flags.empty

end Checkers

end MemLint.Settings
