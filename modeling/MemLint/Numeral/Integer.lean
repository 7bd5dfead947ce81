/-! Integer literals. Two digits may name a base (`0x`, `0o`, `0b`, in either case), a leading zero
means base eight, and the suffixes `u` and `l` are dropped. The value fits a signed 64-bit word. -/

namespace MemLint.Numeral

/-- The list without the trailing elements that satisfy `p`. -/
def dropEnd (p : Char → Bool) (cs : List Char) : List Char := (cs.reverse.dropWhile p).reverse

/-- The value of a digit or letter, as far as base 36. -/
def digitValue? (c : Char) : Option Nat :=
  if c.isDigit then some (c.toNat - '0'.toNat)
  else if c.isLower then some (c.toNat - 'a'.toNat + 10)
  else if c.isUpper then some (c.toNat - 'A'.toNat + 10)
  else none

/-- A digit of the base. -/
def digit? (base : Nat) (c : Char) : Option Nat :=
  (digitValue? c).filter (· < base)

/-- The value of a run of digits, none of which is refused. -/
def digits? (base : Nat) (cs : List Char) : Option Nat :=
  cs.foldlM (fun n c => (digit? base c).map (n * base + ·)) 0

/-- The base that a numeral names, and the digits that follow. -/
def splitBase : List Char → Nat × List Char
  | '0' :: c :: d :: ds =>
    match c.toLower with
    | 'x' => (16, d :: ds)
    | 'o' => (8, d :: ds)
    | 'b' => (2, d :: ds)
    | _ => (8, c :: d :: ds)
  | '0' :: ds => (8, ds)
  | ds => (10, ds)

/-- The value of a numeral without sign and suffix. -/
def natural? (cs : List Char) : Option Nat :=
  if cs.isEmpty then none else digits? (splitBase cs).1 (splitBase cs).2

def maxInt64 : Nat := 0x7fffffffffffffff

def integer? (text : String) : Option Int := do
  let n ← natural? (dropEnd (fun c => c ∈ ['u', 'U', 'l', 'L']) text.toList)
  if n ≤ maxInt64 then some n else none

/-- Underscores stand one by one, and not at an end. -/
def isGrouped (cs : List Char) : Bool :=
  cs.head? ≠ some '_' && cs.getLast? ≠ some '_' &&
    (cs.zip cs.tail).all fun p => p.1 ≠ '_' || p.2 ≠ '_'

/-- The value of a numeral without sign and suffix, whose digits may be grouped. -/
def grouped? (cs : List Char) : Option Nat :=
  if cs.isEmpty || !isGrouped cs then none
  else digits? (splitBase cs).1 ((splitBase cs).2.filter (· ≠ '_'))

/-- The value of a numeral with an optional sign. Without one it may go up to `limit`. -/
def signed? (natural : List Char → Option Nat) (limit : Nat) (cs : List Char) : Option Int :=
  match cs with
  | '-' :: ds => ((natural ds).filter (· ≤ maxInt64 + 1)).map fun n => -(n : Int)
  | '+' :: ds => ((natural ds).filter (· ≤ maxInt64)).map Int.ofNat
  | ds => ((natural ds).filter (· ≤ limit)).map Int.ofNat

end MemLint.Numeral
