import RingList.Cursor

/-!
# Search

The first node whose value matches a key. Values are matched by the list's hook or, if it has none,
by a fallback; the walk stops at the first match, so no value behind it is looked at.
-/

set_option autoImplicit false

namespace RingList

variable {η σ α : Type}

/-- Steps the cursor to the first node that the hook matches with the key, in a ring of at most
`fuel` blocks. -/
def searchFrom (B : Behaviour η σ α) (matcher : η) (key : α) :
    Nat → Cursor → Action η σ α (Option Addr)
  | 0, _ => fault .endlessWalk
  | fuel + 1, c => do
    match ← c.step with
    | (none, _) => return none
    | (some node, c) =>
      if ← callMatching B matcher (← value node) key then return some node
      searchFrom B matcher key fuel c

/-- The first node whose value matches the key. -/
def search (B : Behaviour η σ α) (l : Addr) (key : α) (fallback : η) : Action η σ α (Option Addr) := do
  let matcher := (← hooks l).matching.getD fallback
  searchFrom B matcher key (← get).heap.size (← Cursor.seat l .forward)

end RingList
