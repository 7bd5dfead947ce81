import MemLint.Text.Printable

/-! Quoted text, as messages show it: between double quotes, printable characters as they are and
the others as escapes. -/

namespace MemLint.Text

/-- A code in lower-case hexadecimal, with at least `width` digits. -/
def hexadecimal (width code : Nat) : List Char :=
  let digits := Nat.toDigits 16 code
  List.replicate (width - digits.length) '0' ++ digits

/-- The letter that stands for a control character after a backslash. -/
def escapeLetter? (c : Char) : Option Char :=
  match c.toNat with
  | 0x07 => some 'a'
  | 0x08 => some 'b'
  | 0x09 => some 't'
  | 0x0A => some 'n'
  | 0x0B => some 'v'
  | 0x0C => some 'f'
  | 0x0D => some 'r'
  | _ => none

def quoteChar (c : Char) : List Char :=
  if c = '"' ∨ c = '\\' then ['\\', c]
  else if isPrintable c then [c]
  else match escapeLetter? c with
    | some l => ['\\', l]
    | none =>
      let code := c.toNat
      if code < 0x80 then '\\' :: 'x' :: hexadecimal 2 code
      else if code < 0x10000 then '\\' :: 'u' :: hexadecimal 4 code
      else '\\' :: 'U' :: hexadecimal 8 code

def quoted (s : String) : String :=
  String.ofList ('"' :: s.toList.flatMap quoteChar ++ ['"'])

end MemLint.Text
