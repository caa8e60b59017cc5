/-! # Sets of characters

A set of characters is a list of ranges of code points, ends included, in increasing order. -/

namespace Mixsheet.Text

/-- Ranges of code points, ends included, in increasing order. -/
abbrev CharSet := List (Nat × Nat)

/-- The code point lies in one of the ranges; the search ends at the first range beyond it. -/
def CharSet.containsCode : CharSet → Nat → Bool
  | [], _ => false
  | (first, last) :: rest, n => first ≤ n && (n ≤ last || CharSet.containsCode rest n)

/-- The character lies in one of the ranges. -/
def CharSet.contains (s : CharSet) (c : Char) : Bool := s.containsCode c.toNat

end Mixsheet.Text
