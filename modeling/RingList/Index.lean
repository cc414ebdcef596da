import RingList.Direction

/-!
# Positions

A position counts from the front (0 is the first node) or, if negative, from the back (-1 is the last
node). The node there is reached from whichever end is nearer: a `Route` is the direction to walk in
and the number of links to follow.
-/

set_option autoImplicit false

namespace RingList

variable {η σ α : Type}

def signedWord (n : Int) : Except Fault Int :=
  if -(1 <<< 63) ≤ n ∧ n < 1 <<< 63 then .ok n else .error .wordRange

def unsignedWord (n : Int) : Except Fault Nat :=
  if 0 ≤ n ∧ n < 1 <<< 64 then .ok n.toNat else .error .wordRange

/-- How to reach a node: from the front walking forward, or from the back walking backward. -/
structure Route where
  direction : Direction
  links : Nat
deriving DecidableEq, Repr

namespace Route

/-- A position as the number of links from the end that it counts from. -/
def ofPosition (i : Int) : Except Fault Route := do
  if i < 0 then
    let up ← signedWord (i + 1)
    let down ← signedWord (-up)
    return ⟨.backward, ← unsignedWord down⟩
  else
    return ⟨.forward, ← unsignedWord i⟩

/-- The route to the same node from the other end of a list of a given length. -/
def opposite (r : Route) (length : Nat) : Except Fault Route := do
  let last ← unsignedWord (length - 1)
  return ⟨r.direction.flip, ← unsignedWord (last - r.links)⟩

/-- The route to a position of a list of a given length, if there is such a node: a route of more
links than half the length is exchanged for the opposite one. -/
def plan (length : Nat) (i : Int) : Except Fault (Option Route) := do
  let r ← ofPosition (← signedWord i)
  if length ≤ r.links then return none
  if length / 2 < r.links then return some (← r.opposite length)
  return some r

def go (r : Route) (l : Addr) : Action η σ α Addr := do
  r.direction.walk r.links (← r.direction.follow l)

end Route

def index (l : Addr) (i : Int) : Action η σ α (Option Addr) := do
  match Route.plan (← length l) i with
  | .error f => fault f
  | .ok none => return none
  | .ok (some r) => return handle l (← r.go l)

end RingList
