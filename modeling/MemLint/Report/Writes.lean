import MemLint.Report.Sarif
import MemLint.Settings.Format

/-! The texts in which a report is written, and a stream that stops taking them. -/

namespace MemLint

/-- The texts of a report, one for each write: a line of text, or a whole document. -/
def Report.writes (r : Report) (style : Report.Style) (format : Settings.Format)
    (e : Report.Encoder := .own) : List String :=
  match format with
  | .text => r.lines style
  | .json => [e.text r.json]
  | .sarif => [e.text r.sarif]

/-- What a stream has taken of some writes, and whether it took them all. -/
structure Delivery where
  written : List String
  complete : Bool

/-- A stream that refuses one write, counted from one, if it is given. -/
def deliver (refused : Option Nat) (writes : List String) : Delivery :=
  match refused with
  | none => ⟨writes, true⟩
  | some n => ⟨writes.take (n - 1), writes.length < n⟩

/-- The error of a write that is refused. -/
def writeFailed : String := "write failed"

end MemLint
