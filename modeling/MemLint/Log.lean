import MemLint.Text.Blank
import MemLint.Text.Bytes
import MemLint.Text.Quoted

/-! Log records: a level, a message and named values, written on one line. -/

namespace MemLint.Log

inductive Value where
  | str (s : String)
  | int (n : Int)
  | bool (b : Bool)
  | list (items : List String)
  | group (fields : List (String × Value))

inductive Level where
  | debug
  | warn
  deriving DecidableEq, Repr

def Level.name : Level → String
  | debug => "DEBUG"
  | warn => "WARN"

structure Record where
  level : Level
  message : String
  fields : List (String × Value)

/-- A character that cannot stand in a text without quotes. A backslash and the delete character
can. -/
def needsQuotes (c : Char) : Bool :=
  if c.toNat < 0x80 then c = '"' || c = '=' || c.toNat ≤ 0x20
  else c = Text.replacement || Text.isBlank c || !Text.isPrintable c

def text (s : String) : String :=
  if s.isEmpty || s.toList.any needsQuotes then Text.quoted s else s

mutual

/-- The values in a value, each with its full name. -/
def flatten (name : String) : Value → List (String × String)
  | .str s => [(name, s)]
  | .int n => [(name, toString n)]
  | .bool b => [(name, if b then "true" else "false")]
  | .list items => [(name, "[" ++ " ".intercalate items ++ "]")]
  | .group fields => flattenAll (name ++ ".") fields

/-- The values of named values, behind a common start of their names. -/
def flattenAll (start : String) : List (String × Value) → List (String × String)
  | [] => []
  | (name, v) :: rest => flatten (start ++ name) v ++ flattenAll start rest

end

/-- The line of a record, without its end. -/
def Record.line (r : Record) : String :=
  let fields := ("level", r.level.name) :: ("msg", r.message) :: flattenAll "" r.fields
  " ".intercalate (fields.map fun (name, s) => s!"{name}={text s}")

end MemLint.Log
