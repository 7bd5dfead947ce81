import MemLint.Numeral.Integer
import MemLint.Numeral.Binary

/-! Floating literals: digits with one point, in base ten with an optional exponent `e` of ten, or
after `0x` in base sixteen with an exponent `p` of two that must be there. The suffixes `f` and
`l` are dropped. A literal stands for the whole part of its value as a binary floating-point
number. An exponent has no sign, since no sign is part of a literal. -/

namespace MemLint.Numeral

/-- The digits of a mantissa: their value and how many of them follow the point. -/
structure Mantissa where
  value : Nat
  places : Nat

/-- The digits before and after the point, and the text from the exponent on. At least one digit
is needed. -/
def mantissa? (base : Nat) (cs : List Char) : Option (Mantissa × List Char) := do
  let isDigit := fun c => (digit? base c).isSome
  let whole := cs.takeWhile isDigit
  let rest := cs.dropWhile isDigit
  let (fraction, rest) := match rest with
    | '.' :: rest => (rest.takeWhile isDigit, rest.dropWhile isDigit)
    | _ => ([], rest)
  if whole.isEmpty && fraction.isEmpty then none
  let value ← digits? base (whole ++ fraction)
  some (⟨value, fraction.length⟩, rest)

/-- The value of an exponent; from 10000 on further digits no longer count. -/
def exponent? (cs : List Char) : Option Nat :=
  if cs.isEmpty then none
  else cs.foldlM (fun n c => (digit? 10 c).map fun d => if n < 10000 then n * 10 + d else n) 0

def decimal? (cs : List Char) : Option Nat := do
  let (m, rest) ← mantissa? 10 cs
  let e ← match rest with
    | [] => some 0
    | c :: ds => if c.toLower = 'e' then exponent? ds else none
  if m.value = 0 then some 0 else wholeRounded? (m.value * Nat.pow 10 e) (Nat.pow 10 m.places)

def hexadecimal? (cs : List Char) : Option Nat := do
  let (m, rest) ← mantissa? 16 cs
  let e ← match rest with
    | c :: ds => if c.toLower = 'p' then exponent? ds else none
    | [] => none
  if m.value = 0 then some 0 else wholeRounded? (m.value * Nat.pow 2 e) (Nat.pow 16 m.places)

def floating? (text : String) : Option Int :=
  let cs := dropEnd (fun c => c ∈ ['f', 'F', 'l', 'L']) text.toList
  (match cs with
    | '0' :: c :: d :: ds =>
      if c.toLower = 'x' then hexadecimal? (d :: ds) else decimal? cs
    | _ => decimal? cs).map Int.ofNat

end MemLint.Numeral
