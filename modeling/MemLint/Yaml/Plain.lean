import MemLint.Text.Blank
import MemLint.Yaml.Scalar
import MemLint.Yaml.Space

/-! Plain scalars: where they end, and what they stand for. -/

namespace MemLint.Yaml

/-- Three dashes or three points, which start or end a document if they start a line. -/
def isMarker (cs : List Char) : Bool :=
  (cs.take 3 = "---".toList || cs.take 3 = "...".toList) && spaceNext (cs.drop 3)

/-- Characters that end a plain scalar in brackets. -/
def bracketMarks : List Char := [',', '?', '[', ']', '\x7b', '\x7d']

/-- A character that ends a plain scalar, in view of what follows it. -/
def endsPlain (inBrackets : Bool) (c : Char) (cs : List Char) : Bool :=
  (c = ':' && spaceNext cs) || (inBrackets && c ∈ bracketMarks)

/-- Where the next character of a plain scalar stands. -/
inductive Place where
  | word
  /-- After white space. -/
  | gap
  /-- After white space with the end of a line. -/
  | margin
  deriving DecidableEq, Repr

/-- How many characters a plain scalar takes, with the white space after it, and the place where it
ends. Outside brackets its lines start at the column `least` or after it, and no tab stands in front
of that column. -/
def plainSpan? (inBrackets : Bool) (least : Nat) :
    (column : Nat) → Place → List Char → Option (Nat × Place)
  | _, place, [] => some (0, place)
  | column, place, c :: cs =>
    let go (column : Nat) (place : Place) : Option (Nat × Place) :=
      (plainSpan? inBrackets least column place cs).map fun (n, p) => (n + 1, p)
    if isEnd c then go 0 .margin
    else if isBlank c then
      if place ≠ .margin then go (column + 1) .gap
      else if c = '\t' ∧ column < least then none
      else go (column + 1) .margin
    else if place = .margin ∧
        ((!inBrackets ∧ column < least) ∨ (column = 0 ∧ isMarker (c :: cs))) then
      some (0, place)
    else if (place ≠ .word ∧ c = '#') ∨ endsPlain inBrackets c cs then some (0, place)
    else go (column + 1) .word

/-- The plain scalar that is written so. White space around it does not count. -/
def Scalar.ofPlain (text : List Char) : Scalar :=
  ⟨String.ofList (fold {} ((Text.strip isSpace text).map .char)), false⟩

end MemLint.Yaml
