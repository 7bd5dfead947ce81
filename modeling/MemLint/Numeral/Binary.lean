/-! Fractions rounded to binary floating point: 53 significant bits, to nearest, a tie to the even
neighbour. Only the whole part of the rounded value is kept. -/

namespace MemLint.Numeral

/-- The quotient `num / den` rounded to the nearest whole number, a half to the even one. -/
def roundDiv (num den : Nat) : Nat :=
  let q := num / den
  let r := num % den
  if 2 * r < den then q
  else if den < 2 * r then q + 1
  else if q % 2 = 0 then q else q + 1

/-- The exponent `k` with `2 ^ k ≤ num / den < 2 ^ (k + 1)`. -/
def magnitude (num den : Nat) : Int :=
  let k : Int := (num.log2 : Int) - (den.log2 : Int)
  if 0 ≤ k then
    if num < den * Nat.pow 2 k.toNat then k - 1 else k
  else
    if num * Nat.pow 2 (-k).toNat < den then k - 1 else k

/-- The least value that no longer rounds to a finite one starts at this power of two. -/
def overflow : Nat := Nat.pow 2 1024

/-- The whole part of `num / den` after rounding, unless it overflows. Below one half it is zero. -/
def wholeRounded? (num den : Nat) : Option Nat :=
  if 2 * num < den then some 0
  else
    let scale := magnitude num den - 52
    if 0 ≤ scale then
      let n := roundDiv num (den * Nat.pow 2 scale.toNat) * Nat.pow 2 scale.toNat
      if n < overflow then some n else none
    else
      some (roundDiv (num * Nat.pow 2 (-scale).toNat) den / Nat.pow 2 (-scale).toNat)

end MemLint.Numeral
