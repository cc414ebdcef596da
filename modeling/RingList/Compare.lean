import RingList.Iteration

/-!
# Equality and hash feed

Two lists are equal when they have the same length and their values agree pairwise, whatever relation
between values is meant. What a list feeds a hasher is its length and then its values.
-/

set_option autoImplicit false

namespace RingList

variable {η σ α : Type}

/-- Compares what is left of two iterators pairwise, up to the first pair that the relation refuses. -/
def equalFrom (B : Behaviour η σ α) (rel : η) : Nat → Iter → Iter → Action η σ α Bool
  | 0, _, _ => fault .endlessWalk
  | fuel + 1, left, right => do
    match ← left.next with
    | (none, _) => return (← right.next).1.isNone
    | (some v, left) =>
      match ← right.next with
      | (none, _) => return false
      | (some w, right) =>
        if ← callMatching B rel v w then equalFrom B rel fuel left right else return false

/-- Whether two lists are equal. The relation between values is called like a matching hook, with the
value of the left list first. -/
def equal (B : Behaviour η σ α) (l other : Addr) (rel : η) : Action η σ α Bool := do
  if (← length l) ≠ (← length other) then return false
  let left ← Iter.start l
  equalFrom B rel (left.remaining + 1) left (← Iter.start other)

/-- Whether two lists are not equal. -/
def unequal (B : Behaviour η σ α) (l other : Addr) (rel : η) : Action η σ α Bool := do
  return !(← equal B l other rel)

/-- The `width` lowest bytes of a number, lowest first. -/
def littleEndian : Nat → Nat → List UInt8
  | 0, _ => []
  | width + 1, n => UInt8.ofNat n :: littleEndian width (n / 256)

/-- The bytes that a sequence of values feeds a hasher. -/
def hashFeed (bytes : α → List UInt8) (vs : List α) : List UInt8 :=
  littleEndian 8 vs.length ++ vs.flatMap bytes

/-- The bytes that a list feeds a hasher: its length as a machine word, then its values in order. -/
def hash (bytes : α → List UInt8) (l : Addr) : Action η σ α (List UInt8) := do
  return littleEndian 8 (← length l) ++ (← values l).flatMap bytes

end RingList
