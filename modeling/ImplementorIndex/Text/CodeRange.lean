/-!
# Ranges of code points

A character class of a standard is given as an ascending list of closed ranges of code points.
This module holds the membership test only; the classes themselves stand in their own modules.
-/

namespace ImplementorIndex.Text

/-- A closed range of code points, from its first to its last. -/
abbrev CodeRange := Nat × Nat

def inRanges (ranges : List CodeRange) (code : Nat) : Bool :=
  ranges.any fun range => range.1 ≤ code && code ≤ range.2

end ImplementorIndex.Text
