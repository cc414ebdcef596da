import RingList.Iteration

/-!
# Copying a list

A copy has the hooks and the allocator of its source and a value for each of the source's values. The
values are copied by the source's hook or, if it has none, by a fallback. A node is had before the
hook is called, so a copied value never lacks a node. When the copy cannot be completed, what there is
of it is destroyed in order.
-/

set_option autoImplicit false

namespace RingList

variable {η σ α : Type}

/-- Adds a copy of a value at the back of the copy. -/
def copyValue (B : Behaviour η σ α) (dup : η) (copy : Addr) (v : α) : Action η σ α Unit := do
  let r ← record copy
  let node ← allocate r.allocator (.node none)
  match ← callDup B dup v with
  | some w =>
    write node w
    attach copy (← prevOf copy) copy node
  | none =>
    release r.allocator node .node
    throw .notCopied

/-- Copies the values that an iterator over the source still yields. -/
def copyValues (B : Behaviour η σ α) (dup : η) (copy : Addr) : Nat → Iter → Action η σ α Unit
  | 0, _ => fault .endlessWalk
  | fuel + 1, it => do
    match ← it.next with
    | (none, _) => return
    | (some v, it) =>
      copyValue B dup copy v
      copyValues B dup copy fuel it

/-- How a partial copy is destroyed after a stop. -/
def Stop.course : Stop → Course
  | .panicked _ => .unwinding
  | _ => .ordinary

/-- A copy of a list. After a refused block or a value that cannot be copied, and likewise when the
copying hook panics, the partial copy is destroyed; if that panics, this panic is what is left. -/
def duplicate (B : Behaviour η σ α) (l : Addr) (fallback : η) : Action η σ α Addr := do
  let source ← record l
  let copy ← create source.allocator
  setHooks copy source.hooks
  try
    let it ← Iter.start l
    copyValues B (source.hooks.dup.getD fallback) copy (it.remaining + 1) it
  catch stop =>
    destroy B stop.course copy
    throw stop
  return copy

end RingList
