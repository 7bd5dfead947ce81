import MemLint.Text.Quoted
import MemLint.Text.Raw

/-! JSON values, and encoders that write them. The encoder that is used where no other is given
writes one field or item a line, with two spaces for each level. Its text is safe inside a page or a
script: the characters that mean something there are escaped. -/

namespace MemLint.Report

inductive Json where
  | str (s : Text.Raw)
  | int (n : Int)
  | bool (b : Bool)
  | list (items : List Json)
  | object (fields : List (String × Json))

structure Encoder where
  /-- The text of a value that stands on a level of a document. -/
  chars : (level : Nat) → Json → List Char
  /-- The text of a value as a whole document. -/
  document : Json → List Char

def Encoder.text (e : Encoder) (v : Json) : String := String.ofList (e.document v)

namespace Json

/-- Characters that are escaped by their code. -/
def isUnsafe (c : Char) : Bool :=
  c.toNat < 0x20 || c ∈ ['<', '>', '&'] || c.toNat = 0x2028 || c.toNat = 0x2029

def escapeChar (c : Char) : List Char :=
  if c = '"' ∨ c = '\\' then ['\\', c]
  else if c = '\n' then ['\\', 'n']
  else if c = '\r' then ['\\', 'r']
  else if c = '\t' then ['\\', 't']
  else if isUnsafe c then '\\' :: 'u' :: Text.hexadecimal 4 c.toNat
  else [c]

/-- A byte that is no part of a character is written by the code of its replacement. -/
def escape : Option Char → List Char
  | some c => escapeChar c
  | none => '\\' :: 'u' :: Text.hexadecimal 4 Text.replacement.toNat

def quote (s : Text.Raw) : List Char := '"' :: s.units.flatMap escape ++ ['"']

/-- The end of a line and the indent of the next. -/
def newline (level : Nat) : List Char := '\n' :: List.replicate (2 * level) ' '

/-- Texts between brackets, each on a line of its own, one level further in. -/
def block (level : Nat) (left right : Char) : List (List Char) → List Char
  | [] => [left, right]
  | ts => left :: [','].intercalate (ts.map (newline (level + 1) ++ ·)) ++ newline level ++ [right]

mutual

def chars (level : Nat) : Json → List Char
  | str s => quote s
  | int n => (toString n).toList
  | bool b => (if b then "true" else "false").toList
  | list vs => block level '[' ']' (items (level + 1) vs)
  | object fs => block level '\x7b' '\x7d' (fields (level + 1) fs)

def items (level : Nat) : List Json → List (List Char)
  | [] => []
  | v :: vs => chars level v :: items level vs

def fields (level : Nat) : List (String × Json) → List (List Char)
  | [] => []
  | (key, v) :: fs => (quote key ++ ':' :: ' ' :: chars level v) :: fields level fs

end

end Json

/-- A document ends with the end of its last line. -/
def Encoder.own : Encoder := ⟨Json.chars, fun v => v.chars 0 ++ ['\n']⟩

end MemLint.Report
