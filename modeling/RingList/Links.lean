import RingList.Store

/-!
# Linking and unlinking

The few steps that write links. The ring of a list is closed through its header, so the first node's
`prev` and the last node's `next` are the header, and an empty list's header is its own neighbour on
both sides. No step needs to know where in the ring it is.
-/

set_option autoImplicit false

namespace RingList

variable {η σ α : Type}

/-- Makes `next` follow `prev`. -/
def connect (prev next : Addr) : Action η σ α Unit := do
  setNext prev next
  setPrev next prev

/-- Expects `next` to follow `prev`. -/
def expectAdjacent (prev next : Addr) : Action η σ α Unit := do
  unless (← nextOf prev) = next do fault .notAdjacent
  unless (← prevOf next) = prev do fault .notAdjacent

/-- Lengths are machine words: this one is too large for them. -/
def wordSize : Nat := 1 <<< 64

def lengthen (l : Addr) (n : Nat) : Action η σ α Unit := do
  let r ← record l
  if r.length + n < wordSize then setRecord l { r with length := r.length + n }
  else fault .wordRange

def shorten (l : Addr) : Action η σ α Unit := do
  let r ← record l
  if 0 < r.length then setRecord l { r with length := r.length - 1 } else fault .wordRange

/-- Takes a node into the list `l`, between two neighbours. -/
def attach (l prev next node : Addr) : Action η σ α Unit := do
  expectAdjacent prev next
  connect prev node
  connect node next
  lengthen l 1
  expectAdjacent prev node
  expectAdjacent node next

/-- Takes a node out of the list `l`, leaving the node itself alone. -/
def unlink (l node : Addr) : Action η σ α Unit := do
  shorten l
  expectKind node .node
  let c ← cell node
  connect c.prev c.next

/-- Takes a node out of the list `l`, gives its block back and hands out its value. -/
def detach (l node : Addr) : Action η σ α α := do
  unlink l node
  let v ← value node
  release (← record l).allocator node .node
  return v

/-- The nodes of a list on their own, from `front` to `back`. -/
structure Chain where
  front : Addr
  back : Addr
  length : Nat
deriving DecidableEq, Repr

/-- Empties the list `l` and hands out its nodes, or none if it is empty already. -/
def detachAll (l : Addr) : Action η σ α (Option Chain) := do
  let front ← nextOf l
  if front = l then return none
  let back ← prevOf l
  let r ← record l
  setRecord l { r with length := 0 }
  connect l l
  return some ⟨front, back, r.length⟩

/-- Takes a chain of nodes into the list `l`, between two neighbours. -/
def attachChain (l prev next : Addr) (chain : Chain) : Action η σ α Unit := do
  expectAdjacent prev next
  connect prev chain.front
  connect chain.back next
  lengthen l chain.length
  expectAdjacent prev chain.front
  expectAdjacent chain.back next

end RingList
