import MemLint.Text.Lower

/-! The forms of a report. -/

namespace MemLint.Settings

inductive Format where
  | text
  | json
  | sarif
  deriving DecidableEq, Repr

namespace Format

def name : Format → String
  | text => "text"
  | json => "json"
  | sarif => "sarif"

/-- The form with a name; no name stands for text. -/
def ofName? (name : String) : Option Format :=
  if name = "" then some text else [text, json, sarif].find? (·.name = name)

/-- The form with a name in any case. -/
def ofText? (s : String) : Option Format := ofName? (Text.lower s)

end Format

end MemLint.Settings
