import RingList.Edit

/-!
# Iteration from both ends

A borrowed iterator holds the next place at each end and the number of values between them. Only the
number stops it: once the ends have met, the places mean nothing. An owning iterator is the list
itself, from whose ends values are popped.
-/

set_option autoImplicit false

namespace RingList

variable {η σ α : Type}

/-- The two ends from which values are taken. -/
inductive End where
  | front
  | back
deriving DecidableEq, Repr

/-- A borrowed iterator over the values of a list. -/
structure Iter where
  front : Addr
  back : Addr
  remaining : Nat
deriving DecidableEq, Repr

namespace Iter

/-- An iterator over all values of a list. -/
def start (l : Addr) : Action η σ α Iter := do
  return ⟨← nextOf l, ← prevOf l, ← length l⟩

def next (it : Iter) : Action η σ α (Option α × Iter) := do
  if it.remaining = 0 then return (none, it)
  let link ← nextOf it.front
  let v ← value it.front
  return (some v, { it with front := link, remaining := it.remaining - 1 })

def nextBack (it : Iter) : Action η σ α (Option α × Iter) := do
  if it.remaining = 0 then return (none, it)
  let link ← prevOf it.back
  let v ← value it.back
  return (some v, { it with back := link, remaining := it.remaining - 1 })

def take (it : Iter) : End → Action η σ α (Option α × Iter)
  | .front => it.next
  | .back => it.nextBack

/-- Another iterator in the same place. -/
def clone (it : Iter) : Iter := { front := it.front, back := it.back, remaining := it.remaining }

/-- The least number of values that are left and, if it is known, the greatest. -/
def sizeHint (it : Iter) : Nat × Option Nat := (it.remaining, some it.remaining)

/-- The last value that is left, found from the back. -/
def last (it : Iter) : Action η σ α (Option α) := do return (← it.nextBack).1

/-- Takes `n` values from an end, or as many as are left. -/
def takeMany (e : End) : Nat → Iter → Action η σ α (List α)
  | 0, _ => pure []
  | n + 1, it => do
    match ← it.take e with
    | (none, _) => return []
    | (some v, it) => return v :: (← takeMany e n it)

/-- The values that are left, taken from an end. -/
def rest (it : Iter) (e : End) : Action η σ α (List α) := takeMany e it.remaining it

/-- Takes values from the ends of a word, noting after each what was got and how many are left. -/
def along : List End → Iter → Action η σ α (List (Option α × Nat))
  | [], _ => pure []
  | e :: word, it => do
    let (v, it) ← it.take e
    return (v, it.sizeHint.1) :: (← along word it)

/-- The debug text: the values that a clone has left, each as `debug` shows it. -/
def debugText (debug : α → String) (it : Iter) : Action η σ α String := do
  let vs ← it.clone.rest .front
  return "Iter([" ++ ", ".intercalate (vs.map debug) ++ "])"

end Iter

def values (l : Addr) : Action η σ α (List α) := do (← Iter.start l).rest .front

/-- Takes the next value out of a list that an iterator owns. -/
def pop (l : Addr) : End → Action η σ α (Option α)
  | .front => popFront l
  | .back => popBack l

/-- Adds values at the back, one by one. -/
def extend (l : Addr) : List α → Action η σ α Unit
  | [] => pure ()
  | v :: vs => do
    let _ ← addTail l v
    extend l vs

end RingList
