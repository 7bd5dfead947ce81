import MemLint.Yaml.Space

/-! A place in a YAML text, and the white space and comments that may follow it. -/

namespace MemLint.Yaml

structure Mark where
  line : Nat := 1
  column : Nat := 0
  index : Nat := 0
  deriving DecidableEq, Repr

structure Cursor extends Mark where
  rest : List Char
  deriving Repr

namespace Cursor

/-- The place after one more character. -/
def next (c : Cursor) : Cursor :=
  match c.rest with
  | [] => c
  | ch :: cs =>
    if isEnd ch then ⟨⟨c.line + 1, 0, c.index + 1⟩, cs⟩
    else ⟨⟨c.line, c.column + 1, c.index + 1⟩, cs⟩

/-- The place after one more character, whatever it is, on the same line. -/
def slip (c : Cursor) : Cursor :=
  match c.rest with
  | [] => c
  | _ :: cs => ⟨⟨c.line, c.column + 1, c.index + 1⟩, cs⟩

def advance (c : Cursor) : Nat → Cursor
  | 0 => c
  | n + 1 => c.next.advance n

theorem rest_next (c : Cursor) : c.next.rest = c.rest.tail := by
  unfold next
  split
  · rename_i h
    rw [h]
    rfl
  · rename_i h
    split <;> rw [h] <;> rfl

theorem rest_slip (c : Cursor) : c.slip.rest = c.rest.tail := by
  unfold slip
  split <;> rename_i h <;> rw [h] <;> rfl

theorem rest_advance (c : Cursor) (n : Nat) : (c.advance n).rest = c.rest.drop n := by
  induction n generalizing c with
  | zero => rfl
  | succ n ih => rw [advance, ih, rest_next, List.drop_tail]

end Cursor

/-! ### Comments -/

/-- Further comments are looked for no further than this after the end of a comment. -/
def commentReach : Nat := 512

/-- How many characters comments take up to the end of a line. Comments after the first one count
if only blanks and newlines stand between; `gap` is how much of that has been seen. -/
def commentSpan : (gap : Option Nat) → List Char → Nat
  | _, [] => 0
  | none, c :: cs =>
    if c = '\n' then commentSpan (some 1) cs
    else if isEnd c then 0
    else commentSpan none cs + 1
  | some n, c :: cs =>
    if isBlank c ∨ c = '\n' then commentSpan (some (n + 1)) cs
    else if c = '#' ∧ n < commentReach then n + 1 + commentSpan none cs
    else 0

/-- How many characters stand in front of the next token of a line, or of its end. -/
def leadSpan (tabs : Bool) (cs : List Char) : Nat :=
  let blanks := (cs.takeWhile fun c => c = ' ' || (tabs && c = '\t')).length
  let rest := cs.drop blanks
  blanks + if rest.head? = some '#' then commentSpan none rest else 0

/-- How many characters blanks and a comment take after a token. -/
def tailSpan (cs : List Char) : Nat :=
  let blanks := (cs.takeWhile isBlank).length
  let rest := cs.drop blanks
  if blanks < commentReach ∧ rest.head? = some '#' then
    blanks + (rest.takeWhile fun c => !isEnd c).length
  else 0

end MemLint.Yaml
