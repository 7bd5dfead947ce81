/-! Bytes read as UTF-8. A byte that starts no well-formed sequence stands for one replacement
character, and reading goes on with the next byte. -/

namespace MemLint.Text

def replacement : Char := Char.ofNat 0xFFFD

/-- The last six bits of a byte that continues a sequence. -/
def continuation? (b : UInt8) : Option Nat :=
  if 0x80 ≤ b ∧ b ≤ 0xBF then some (b.toNat - 0x80) else none

/-- The character that starts with `b`, and how many of the bytes after `b` it takes. Overlong
forms, surrogates and codes above 0x10FFFF are refused. -/
def character? (b : UInt8) (bs : List UInt8) : Option (Char × Nat) :=
  if b < 0x80 then some (Char.ofNat b.toNat, 0)
  else if b < 0xE0 then
    match bs with
    | b1 :: _ => do
      let n := (b.toNat - 0xC0) * 0x40 + (← continuation? b1)
      if 0xC2 ≤ b then some (Char.ofNat n, 1) else none
    | _ => none
  else if b < 0xF0 then
    match bs with
    | b1 :: b2 :: _ => do
      let n := ((b.toNat - 0xE0) * 0x40 + (← continuation? b1)) * 0x40 + (← continuation? b2)
      if 0x800 ≤ n ∧ (n < 0xD800 ∨ 0xE000 ≤ n) then some (Char.ofNat n, 2) else none
    | _ => none
  else
    match bs with
    | b1 :: b2 :: b3 :: _ => do
      let n := (((b.toNat - 0xF0) * 0x40 + (← continuation? b1)) * 0x40
        + (← continuation? b2)) * 0x40 + (← continuation? b3)
      if 0x10000 ≤ n ∧ n < 0x110000 then some (Char.ofNat n, 3) else none
    | _ => none

/-- The characters of `bytes`, with nothing for a byte that starts none; in front of them stands
the reverse of `done`. -/
def unitsFrom (done : List (Option Char)) : List UInt8 → List (Option Char)
  | [] => done.reverse
  | b :: bs =>
    match character? b bs with
    | some (c, more) => unitsFrom (some c :: done) (bs.drop more)
    | none => unitsFrom (none :: done) bs
termination_by bytes => bytes.length
decreasing_by
  · simp only [List.length_cons, List.length_drop]; omega
  · simp only [List.length_cons]; omega

def units (bytes : List UInt8) : List (Option Char) := unitsFrom [] bytes

def decode (bytes : List UInt8) : List Char := (units bytes).map (·.getD replacement)

end MemLint.Text
