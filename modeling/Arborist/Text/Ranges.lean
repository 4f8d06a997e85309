/-!
# Sets of code points

A set of code points is given by ranges in ascending order, and looked up by halving.
-/

namespace Arborist.Text

/-- Ranges of code points, each with its first and its last one, in ascending order and apart from
each other, so that `hasBetween` can halve the part to look at. -/
structure Ranges where
  ranges : Array (Nat × Nat)

namespace Ranges

def hasBetween (r : Ranges) (n low high : Nat) : Bool :=
  if low < high then
    let middle := (low + high) / 2
    let range := r.ranges.getD middle (0, 0)
    if n < range.1 then r.hasBetween n low middle
    else if range.2 < n then r.hasBetween n (middle + 1) high
    else true
  else false
termination_by high - low

def contains (r : Ranges) (c : Char) : Bool := r.hasBetween c.toNat 0 r.ranges.size

end Ranges
end Arborist.Text
