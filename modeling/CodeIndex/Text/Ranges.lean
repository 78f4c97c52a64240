/-!
# Tables of character ranges

A character property is kept as an array of closed ranges of scalar values, increasing and disjoint,
and looked up by halving.
-/

namespace CodeIndex

/-- Whether `n` lies in one of the ranges with an index between `low` and `high` (`fuel` bounds the
number of halvings). -/
def inRangesBetween (table : Array (Nat × Nat)) (n : Nat) : (fuel low high : Nat) → Bool
  | 0, _, _ => false
  | fuel + 1, low, high =>
    if high ≤ low then false
    else
      let middle := (low + high) / 2
      let (first, last) := table.getD middle (0, 0)
      if n < first then inRangesBetween table n fuel low middle
      else if last < n then inRangesBetween table n fuel (middle + 1) high
      else true

/-- Whether `n` lies in one of the ranges of the table. -/
def inRanges (table : Array (Nat × Nat)) (n : Nat) : Bool :=
  inRangesBetween table n (table.size + 1) 0 table.size

end CodeIndex
