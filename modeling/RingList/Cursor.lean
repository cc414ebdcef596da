import RingList.Direction

/-!
# Cursors

A cursor is a place in the ring of a list, kept outside of the list. It has read the link it follows
next already when it returns a node, so that node may be removed before the next step. Reaching the
header is the end of the walk.
-/

set_option autoImplicit false

namespace RingList

variable {η σ α : Type}

/-- A place in the walk along the list with a given header. -/
structure Cursor where
  /-- The node that the next step returns. -/
  next : Option Addr
  header : Addr
  direction : Direction
deriving DecidableEq, Repr

namespace Cursor

/-- A cursor at the start of a walk along the list `l`. -/
def seat (l : Addr) (d : Direction) : Action η σ α Cursor := do
  return ⟨handle l (← d.follow l), l, d⟩

/-- Returns the node at the cursor, and the cursor moved past it. -/
def step (c : Cursor) : Action η σ α (Option Addr × Cursor) := do
  match c.next with
  | none => return (none, c)
  | some a =>
    let link ← c.direction.follow a
    return (some a, { c with next := handle c.header link })

/-- The nodes that a cursor still returns, in a ring of at most `fuel` blocks. -/
def rest : Nat → Cursor → Action η σ α (List Addr)
  | 0, _ => fault .endlessWalk
  | fuel + 1, c => do
    match ← c.step with
    | (none, _) => return []
    | (some a, c) => return a :: (← rest fuel c)

end Cursor

/-- The nodes that a cursor meets along a list. -/
def nodesAlong (l : Addr) (d : Direction) : Action η σ α (List Addr) := do
  Cursor.rest (← get).heap.size (← Cursor.seat l d)

/-- The nodes met from `node` backwards, one `prevNode` at a time. -/
def nodesBefore (l : Addr) : Nat → Option Addr → Action η σ α (List Addr)
  | _, none => pure []
  | 0, some _ => fault .endlessWalk
  | fuel + 1, some node => do return node :: (← nodesBefore l fuel (← prevNode l node))

end RingList
