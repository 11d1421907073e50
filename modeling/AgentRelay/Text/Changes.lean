/-
  Counting the entries of an ordered table up to a bound, by halving.

  A character class is kept as the ordered code points at which membership
  changes; the parity of the count decides membership.
-/

namespace AgentRelay.Text

/-- The least index in `[lo, hi)` whose entry exceeds `n`, or `hi`, by halving;
`fuel` bounds the number of halvings. -/
def changesFrom (table : Array Nat) (n : Nat) : Nat → Nat → Nat → Nat
  | 0, lo, _ => lo
  | fuel + 1, lo, hi =>
    if lo < hi then
      let mid := (lo + hi) / 2
      if table.getD mid 0 ≤ n then changesFrom table n fuel (mid + 1) hi
      else changesFrom table n fuel lo mid
    else lo

/-- How many entries of an ordered table are at most `n`. -/
def changesUpTo (table : Array Nat) (n : Nat) : Nat :=
  changesFrom table n (table.size + 1) 0 table.size

end AgentRelay.Text
