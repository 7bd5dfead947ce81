import MemLint.Yaml.Scalar
import MemLint.Yaml.Space

/-! Scalars in quotes. Between apostrophes nothing is escaped but the apostrophe, which is written
twice; between double quotes a backslash escapes. -/

namespace MemLint.Yaml

def apostrophe : Char := Char.ofNat 0x27

/-- The text up to the apostrophe that closes, and what follows. -/
def single? : List Char → Option (List Part × List Char)
  | [] => none
  | c :: cs =>
    if c ≠ apostrophe then (single? cs).map fun (ps, rest) => (.char c :: ps, rest)
    else match cs with
      | [] => some ([], [])
      | d :: ds =>
        if d = apostrophe then (single? ds).map fun (ps, rest) => (.char d :: ps, rest)
        else some ([], d :: ds)

/-- The character that a letter after a backslash stands for. -/
def escaped? (c : Char) : Option Char :=
  match c with
  | '0' => some (Char.ofNat 0x00)
  | 'a' => some (Char.ofNat 0x07)
  | 'b' => some (Char.ofNat 0x08)
  | 't' | '\t' => some '\t'
  | 'n' => some '\n'
  | 'v' => some (Char.ofNat 0x0B)
  | 'f' => some (Char.ofNat 0x0C)
  | 'r' => some '\r'
  | 'e' => some (Char.ofNat 0x1B)
  | ' ' | '"' | '\\' => some c
  | 'N' => some (Char.ofNat 0x85)
  | '_' => some (Char.ofNat 0xA0)
  | 'L' => some (Char.ofNat 0x2028)
  | 'P' => some (Char.ofNat 0x2029)
  | _ => if c = apostrophe then some c else none

/-- How many hexadecimal digits follow a letter after a backslash. -/
def codeWidth? (c : Char) : Option Nat :=
  match c with
  | 'x' => some 2
  | 'u' => some 4
  | 'U' => some 8
  | _ => none

/-- The character with a code, which is no surrogate. -/
def character? (code : Nat) : Option Char :=
  if code.isValidChar then some (Char.ofNat code) else none

/-- The text up to the double quote that closes, and what follows. -/
def double? : List Char → Option (List Part × List Char)
  | [] => none
  | '"' :: rest => some ([], rest)
  | ['\\'] => none
  | '\\' :: c :: cs =>
    match codeWidth? c with
    | some width => do
      if (cs.take width).length < width then none
      let d ← character? (← Numeral.digits? 16 (cs.take width))
      let (ps, rest) ← double? (cs.drop width)
      some (.escaped d :: ps, rest)
    | none => do
      let p ← if isEnd c then some .joint else (escaped? c).map .escaped
      let (ps, rest) ← double? cs
      some (p :: ps, rest)
  | c :: cs => (double? cs).map fun (ps, rest) => (.char c :: ps, rest)
termination_by cs => cs.length
decreasing_by all_goals simp only [List.length_cons, List.length_drop]; omega

/-- A scalar in quotes, and what follows. -/
def quoted? : List Char → Option (Scalar × List Char)
  | [] => none
  | c :: cs => do
    let (ps, rest) ← if c = '"' then double? cs else if c = apostrophe then single? cs else none
    some (⟨String.ofList (fold {} ps), true⟩, rest)

end MemLint.Yaml
