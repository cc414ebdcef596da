import RingList.Links

/-!
# Lists and their edits

A list is named by the address of its header, a place in it by the address of a node. Creating a list
or adding a value asks for one block before anything else is touched, so a refused request leaves
every list as it was. A value that leaves a list is either handed to the caller (`popFront`,
`popBack`, the old value of a write) or destroyed (`delete`, `clear`, `destroy`); only destroyed
values reach the free hook.
-/

set_option autoImplicit false

namespace RingList

variable {η σ α : Type}

/-! ## Reading -/

/-- A handle for a place in the ring of `l`: the header is no place. -/
def handle (l a : Addr) : Option Addr := if a = l then none else some a

def head (l : Addr) : Action η σ α (Option Addr) := do return handle l (← nextOf l)

def tail (l : Addr) : Action η σ α (Option Addr) := do return handle l (← prevOf l)

def nextNode (l node : Addr) : Action η σ α (Option Addr) := do return handle l (← nextOf node)

def prevNode (l node : Addr) : Action η σ α (Option Addr) := do return handle l (← prevOf node)

def length (l : Addr) : Action η σ α Nat := do return (← record l).length

def isEmpty (l : Addr) : Action η σ α Bool := do return (← nextOf l) = l

/-- The value in a node, if there is a node. -/
def valueAt : Option Addr → Action η σ α (Option α)
  | none => pure none
  | some node => some <$> value node

def front (l : Addr) : Action η σ α (Option α) := do valueAt (← head l)

def back (l : Addr) : Action η σ α (Option α) := do valueAt (← tail l)

def hooks (l : Addr) : Action η σ α (Hooks η) := do return (← record l).hooks

def allocator (l : Addr) : Action η σ α Allocator := do return (← record l).allocator

/-! ## Hooks -/

def setHooks (l : Addr) (hooks : Hooks η) : Action η σ α Unit := do
  setRecord l { ← record l with hooks }

/-- Installs one hook on a list, in place of the one of this kind that may be there. -/
def installHook (l : Addr) (kind : HookKind) (h : η) : Action η σ α Unit := do
  let hooks ← hooks l
  setHooks l <| match kind with
    | .dup => { hooks with dup := some h }
    | .free => { hooks with free := some h }
    | .matching => { hooks with matching := some h }

/-! ## Adding -/

/-- A new empty list without hooks. -/
def create (source : Allocator) : Action η σ α Addr :=
  allocate source (.header { length := 0, hooks := {}, allocator := source })

/-- A new node for the list `l` that holds a value. Without memory for it the value is dropped. -/
def newNode (l : Addr) (v : α) : Action η σ α Addr := do
  let r ← record l
  let node ←
    try allocate r.allocator (.node none)
    catch stop =>
      emit (.dropped v)
      throw stop
  write node v
  return node

def addHead (l : Addr) (v : α) : Action η σ α Addr := do
  let node ← newNode l v
  attach l l (← nextOf l) node
  return node

def addTail (l : Addr) (v : α) : Action η σ α Addr := do
  let node ← newNode l v
  attach l (← prevOf l) l node
  return node

/-- Adds a value right after or right before a node of the list. -/
def insert (l anchor : Addr) (v : α) (after : Bool) : Action η σ α Addr := do
  let node ← newNode l v
  if after then attach l anchor (← nextOf anchor) node
  else attach l (← prevOf anchor) anchor node
  return node

/-! ## Writing -/

/-- Exchanges the value in a node and hands out the old one. -/
def exchange (node : Addr) (v : α) : Action η σ α α := do
  let old ← value node
  write node v
  return old

/-- Exchanges the value in a node, if there is a node. -/
def exchangeAt (v : α) : Option Addr → Action η σ α (Option α)
  | none => pure none
  | some node => some <$> exchange node v

def setFront (l : Addr) (v : α) : Action η σ α (Option α) := do exchangeAt v (← head l)

def setBack (l : Addr) (v : α) : Action η σ α (Option α) := do exchangeAt v (← tail l)

/-! ## Removing -/

/-- Removes a node and destroys its value. The block is given back first. -/
def delete (B : Behaviour η σ α) (l node : Addr) : Action η σ α Unit := do
  let v ← detach l node
  discard B .ordinary (← hooks l) v

/-- Removes the first node and hands out its value. -/
def popFront (l : Addr) : Action η σ α (Option α) := do
  if ← isEmpty l then return none
  some <$> detach l (← nextOf l)

/-- Removes the last node and hands out its value. -/
def popBack (l : Addr) : Action η σ α (Option α) := do
  if ← isEmpty l then return none
  some <$> detach l (← prevOf l)

/-- Gives back the nodes from `current` up to the header `l` and destroys their values. Each turn
gives a block back, so `fuel` blocks are enough for as many turns. -/
def clearFrom (B : Behaviour η σ α) (course : Course) (l : Addr) (r : Record η) :
    Nat → Addr → Action η σ α Unit
  | 0, _ => fault .endlessWalk
  | fuel + 1, current => do
    if current = l then return
    let next ← nextOf current
    let v ← value current
    release r.allocator current .node
    discard B course r.hooks v
    clearFrom B course l r fuel next

/-- Removes all nodes and destroys their values, from the front on. The list is made empty before the
walk, so it is in order even if a hook panics on the way; the nodes not reached are lost then. -/
def clear (B : Behaviour η σ α) (course : Course) (l : Addr) : Action η σ α Unit := do
  let first ← nextOf l
  let r ← record l
  setRecord l { r with length := 0 }
  connect l l
  clearFrom B course l r (← get).heap.size first

/-- Removes the list itself: its values are destroyed, then its header is given back. -/
def destroy (B : Behaviour η σ α) (course : Course) (l : Addr) : Action η σ α Unit := do
  clear B course l
  release (← record l).allocator l .header

end RingList
