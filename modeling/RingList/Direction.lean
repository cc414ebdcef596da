import RingList.Edit

/-!
# Directions

A ring can be walked both ways. One link from the header leads to the first place of the walk: to the
first node forwards, to the last node backwards.
-/

set_option autoImplicit false

namespace RingList

variable {η σ α : Type}

/-- Which way a list is walked. -/
inductive Direction where
  | forward
  | backward
deriving DecidableEq, Repr

namespace Direction

def flip : Direction → Direction
  | .forward => .backward
  | .backward => .forward

def follow (d : Direction) (a : Addr) : Action η σ α Addr :=
  match d with
  | .forward => nextOf a
  | .backward => prevOf a

def walk (d : Direction) : Nat → Addr → Action η σ α Addr
  | 0, a => pure a
  | links + 1, a => do d.walk links (← d.follow a)

end Direction

end RingList
