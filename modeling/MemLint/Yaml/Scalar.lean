import MemLint.Numeral.Floating
import MemLint.Yaml.Timestamp

/-! Scalars of a YAML document, and what a plain one stands for. -/

namespace MemLint.Yaml

structure Scalar where
  text : String
  quoted : Bool
  deriving DecidableEq, Repr

/-- What a scalar stands for. -/
inductive Meaning where
  | null
  | bool
  /-- The mark of a mapping that is merged into the one around it. -/
  | merge
  | timestamp
  | int (value : Int)
  /-- A floating-point number, and the word it is cut off to unless it is above all words. -/
  | float (word : Option Int)
  | str
  deriving DecidableEq, Repr

def Meaning.tag : Meaning → String
  | null => "!!null"
  | bool => "!!bool"
  | merge => "!!merge"
  | timestamp => "!!timestamp"
  | int _ => "!!int"
  | float _ => "!!float"
  | str => "!!str"

def nullTexts : List String := ["", "~", "null", "Null", "NULL"]

def boolTexts : List String := ["true", "True", "TRUE", "false", "False", "FALSE"]

def mergeText : String := "<<"

/-- The least signed 64-bit word. -/
def minWord : Int := -(Numeral.maxInt64 : Int) - 1

/-- The numbers that are spelled out. -/
def namedFloats : List (String × Option Int) := [
  (".nan", none), (".NaN", none), (".NAN", none),
  (".inf", none), (".Inf", none), (".INF", none),
  ("+.inf", none), ("+.Inf", none), ("+.INF", none),
  ("-.inf", some minWord), ("-.Inf", some minWord), ("-.INF", some minWord)]

/-! ### Numbers -/

/-- The power of ten after a mantissa, as a factor and a divisor. -/
def scale? : List Char → Option (Nat × Nat)
  | [] => some (1, 1)
  | c :: cs =>
    if c = 'e' ∨ c = 'E' then
      match cs with
      | '-' :: ds => (Numeral.exponent? ds).map fun e => (1, Nat.pow 10 e)
      | '+' :: ds => (Numeral.exponent? ds).map fun e => (Nat.pow 10 e, 1)
      | ds => (Numeral.exponent? ds).map fun e => (Nat.pow 10 e, 1)
    else none

/-- The whole part of a finite decimal number, perhaps with a sign. -/
def whole? (cs : List Char) : Option Int :=
  let unsigned (cs : List Char) : Option Nat := do
    let (m, rest) ← Numeral.mantissa? 10 cs
    let (up, down) ← scale? rest
    if m.value = 0 then some 0
    else Numeral.wholeRounded? (m.value * up) (Nat.pow 10 m.places * down)
  match cs with
  | '-' :: ds => (unsigned ds).map fun n => -(n : Int)
  | '+' :: ds => (unsigned ds).map Int.ofNat
  | ds => (unsigned ds).map Int.ofNat

/-- The word that a whole part is cut off to. One just above all words, or below them, counts as
the least word. -/
def word? (whole : Int) : Option Int :=
  if (Numeral.maxInt64 : Int) + 1 < whole then none
  else if whole = (Numeral.maxInt64 : Int) + 1 ∨ whole < minWord then some minWord
  else some whole

def float? (cs : List Char) : Option Meaning := (whole? cs).map fun n => .float (word? n)

/-- An integer with a sign between the mark of its base and its digits. -/
def innerSigned? : List Char → Option Int
  | '0' :: mark :: sign :: ds => do
    let base ← if mark = 'b' then some 2 else if mark = 'o' then some 8 else none
    let n ← if ds.isEmpty then none else Numeral.digits? base ds
    if sign = '+' ∧ n ≤ Numeral.maxInt64 then some n
    else if sign = '-' ∧ n ≤ Numeral.maxInt64 + 1 then some (-(n : Int))
    else none
  | _ => none

/-- Underscores stand between digits only. -/
def separated : (afterDigit : Bool) → List Char → Bool
  | _, [] => true
  | afterDigit, c :: cs =>
    if c = '_' then afterDigit && (cs.head?.map Char.isDigit).getD false && separated false cs
    else separated c.isDigit cs

/-- A text that starts with a digit or a sign. Underscores do not count in a number. An integer
without a sign may take all 64 bits. -/
def numeric (cs : List Char) : Meaning :=
  if isTimestamp cs then .timestamp
  else
    let ds := cs.filter (· ≠ '_')
    match Numeral.signed? Numeral.natural? 0xffffffffffffffff ds with
    | some n => .int n
    | none => (float? ds).getD (((innerSigned? ds).map .int).getD .str)

/-- A text that starts with a point. -/
def pointed (cs : List Char) : Meaning :=
  if separated false cs then (float? (cs.filter (· ≠ '_'))).getD .str else .str

def Scalar.meaning (s : Scalar) : Meaning :=
  if s.quoted then .str
  else if s.text ∈ nullTexts then .null
  else if s.text ∈ boolTexts then .bool
  else if s.text = mergeText then .merge
  else match namedFloats.lookup s.text, s.text.toList with
    | some word, _ => .float word
    | none, '.' :: cs => pointed ('.' :: cs)
    | none, c :: cs => if c.isDigit ∨ c = '+' ∨ c = '-' then numeric (c :: cs) else .str
    | none, [] => .str

end MemLint.Yaml
