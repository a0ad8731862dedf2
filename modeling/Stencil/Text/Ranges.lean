/-! # Ranges of code points — membership in a character table

    A table lists inclusive ranges of code points in ascending order. -/

namespace Stencil.Text

/-- Whether the code point of a character lies in one of the ranges. -/
def inRanges (ranges : List (Nat × Nat)) (c : Char) : Bool :=
  ranges.any fun range => decide (range.1 ≤ c.toNat) && decide (c.toNat ≤ range.2)

end Stencil.Text
