import RingList.Links

/-!
# Moving nodes

Rotating a list and joining two lists move nodes without asking for a block or giving one back, so
the nodes stay what they are. Hooks and allocators belong to lists and do not move with the nodes.
-/

set_option autoImplicit false

namespace RingList

variable {η σ α : Type}

/-- Moves the last node to the front. -/
def rotate (l : Addr) : Action η σ α Unit := do
  if (← record l).length ≤ 1 then return
  let last ← prevOf l
  unlink l last
  attach l l (← nextOf l) last

/-- Moves all nodes of `other` to the end of `l`. -/
def join (l other : Addr) : Action η σ α Unit := do
  match ← detachAll other with
  | none => return
  | some chain => attachChain l (← prevOf l) l chain

end RingList
