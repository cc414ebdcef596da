/-!
# Sets of code points

A set of code points is given by its boundaries in increasing order: the code points at which
membership changes, so the first boundary is the least member. The boundaries are written in rows, and
each row holds whole runs of members: where a run starts and where it is over.
-/

set_option autoImplicit false

namespace RingList.Text

/-- The boundaries of a set of code points. -/
abbrev Boundaries := List (List Nat)

/-- A code point is in the set when an odd number of boundaries is not above it. Only the last row that
starts at or below it matters: the runs of the rows before are over. -/
def Boundaries.contains (rows : Boundaries) (c : Char) : Bool :=
  let below := rows.takeWhile fun row => row.head?.any (· ≤ c.toNat)
  below.getLast?.any fun row => row.countP (· ≤ c.toNat) % 2 == 1

end RingList.Text
