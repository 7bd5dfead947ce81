import MemLint.Text.Bytes

/-! Texts from outside, such as the names of files: bytes, which need not be UTF-8. -/

namespace MemLint.Text

structure Raw where
  bytes : List UInt8
  deriving DecidableEq, Repr

namespace Raw

/-- The text in UTF-8. -/
def ofString (s : String) : Raw := ⟨s.toList.flatMap String.utf8EncodeChar⟩

instance : Coe String Raw := ⟨ofString⟩

def units (r : Raw) : List (Option Char) := Text.units r.bytes

/-- The text as it is read. Each byte that is no part of UTF-8 is read as a replacement. -/
def text (r : Raw) : String := String.ofList (decode r.bytes)

end Raw

end MemLint.Text
