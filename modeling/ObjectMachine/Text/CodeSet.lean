/-!
# Sets of code points

A property of characters is a set of code points, given by the bounds of its ranges: the first
bound opens a range, the second closes it, the third opens the next one, and so on. A code point
belongs to the set when an odd number of bounds lie at or below it.
-/

namespace ObjectMachine.Text

/-- A set of code points, as the increasing bounds of its half-open ranges. -/
structure CodeSet where
  bounds : Array Nat

/-- Whether a code point lies inside one of the ranges. -/
def CodeSet.contains (set : CodeSet) (code : Nat) : Bool :=
  set.bounds.foldl (fun inside bound => if bound ≤ code then !inside else inside) false

end ObjectMachine.Text
