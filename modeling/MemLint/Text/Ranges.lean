/-! Sets of characters, written as ranges of codes. -/

namespace MemLint.Text

/-- The code lies in one of the ranges, ends included. -/
def inRanges (ranges : List (Nat × Nat)) (code : Nat) : Bool :=
  ranges.any fun r => decide (r.1 ≤ code) && decide (code ≤ r.2)

end MemLint.Text
