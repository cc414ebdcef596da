import RingList.Heap

/-!
# Stores and actions

A `Store` is all that lists live in: the heap, the budgets of the limited allocators, the state of
the hooks, and the record of what happened so far. An `Action` works on a store and either gives a
result or stops. It keeps the store in both cases: what was done before a stop stays done.

Every step checks what it relies on. Using a released block, taking a value where none is written or
counting past a machine word is a `Fault`; that no list operation ever meets one is a property of the
operations and not an assumption about them.
-/

set_option autoImplicit false

namespace RingList

/-- What can be observed of the work on lists: requests to allocators, calls of hooks with their
replies, and the values that a list destroys without handing them to a hook. -/
inductive Event (η α : Type) where
  | served (allocator : Allocator) (block : Addr) (kind : BlockKind)
  | refused (allocator : Allocator) (kind : BlockKind)
  | released (allocator : Allocator) (block : Addr) (kind : BlockKind)
  | dup (hook : η) (value : α) (reply : Reply (Option α))
  | free (hook : η) (value : α) (reply : Reply Unit)
  | matching (hook : η) (value key : α) (reply : Reply Bool)
  | dropped (value : α)
deriving DecidableEq, Repr

/-- The state that lists live in. -/
structure Store (η σ α : Type) where
  heap : Heap η α := {}
  /-- The number of requests that each limited allocator still serves; `none` is no limit. -/
  budgets : Array (Option Nat) := #[]
  hookState : σ
  /-- What happened so far, oldest first. -/
  events : Array (Event η α) := #[]

/-- A broken expectation of an operation. -/
inductive Fault where
  | deadBlock
  /-- A block is not of the kind it is used as. -/
  | wrongKind
  /-- The value of a node is used before it is written. -/
  | noValue
  /-- Two blocks that should be neighbours are not. -/
  | notAdjacent
  /-- A length or an index leaves the range of machine words. -/
  | wordRange
  /-- A walk does not come to its end. -/
  | endlessWalk
deriving DecidableEq, Repr

/-- Why an action stopped before its end. -/
inductive Stop where
  | refused (kind : BlockKind)
  | notCopied
  | panicked (hook : HookKind)
  | fault (f : Fault)
deriving DecidableEq, Repr

/-- Work on a store that gives a `β` or stops. -/
abbrev Action (η σ α β : Type) := EStateM Stop (Store η σ α) β

variable {η σ α β : Type}

namespace Store

def log (s : Store η σ α) (e : Event η α) : Store η σ α := { s with events := s.events.push e }

/-- Whether an allocator serves the next request. None does once `Heap.capacity` blocks were handed out,
however many of them were given back. -/
def serves (s : Store η σ α) : Allocator → Bool
  | .global => s.heap.hasRoom
  | .limited k => s.heap.hasRoom && (s.budgets[k]?).any (· != some 0)

/-- Whether an allocator serves the next `n` requests. -/
def supplies (s : Store η σ α) (source : Allocator) (n : Nat) : Bool :=
  decide (s.heap.size + n ≤ Heap.capacity) && match source with
    | .global => true
    | .limited k => (s.budgets[k]?).any (·.all (n ≤ ·))

def budgetsAfter (s : Store η σ α) : Allocator → Array (Option Nat)
  | .global => s.budgets
  | .limited k => s.budgets.modify k (·.map (· - 1))

end Store

/-! ## Single steps -/

def fault (f : Fault) : Action η σ α β := throw (.fault f)

def emit (e : Event η α) : Action η σ α Unit := modify (·.log e)

def cell (a : Addr) : Action η σ α (Cell η α) := do
  match (← get).heap.get? a with
  | some c => pure c
  | none => fault .deadBlock

def change (a : Addr) (f : Cell η α → Cell η α) : Action η σ α Unit := do
  let _ ← cell a
  modify fun s => { s with heap := s.heap.update a f }

def nextOf (a : Addr) : Action η σ α Addr := do return (← cell a).next

def prevOf (a : Addr) : Action η σ α Addr := do return (← cell a).prev

/-- Sets the link from `a` to the block after it. -/
def setNext (a next : Addr) : Action η σ α Unit := change a ({ · with next })

/-- Sets the link from `a` to the block before it. -/
def setPrev (a prev : Addr) : Action η σ α Unit := change a ({ · with prev })

/-- Expects a live block to be of a kind. -/
def expectKind (a : Addr) (kind : BlockKind) : Action η σ α Unit := do
  unless (← cell a).content.kind = kind do fault .wrongKind

def record (l : Addr) : Action η σ α (Record η) := do
  match (← cell l).content with
  | .header r => pure r
  | .node _ => fault .wrongKind

def setRecord (l : Addr) (r : Record η) : Action η σ α Unit := do
  expectKind l .header
  change l ({ · with content := .header r })

/-- The value in a node. -/
def value (a : Addr) : Action η σ α α := do
  match (← cell a).content with
  | .node (some v) => pure v
  | .node none => fault .noValue
  | .header _ => fault .wrongKind

def write (a : Addr) (v : α) : Action η σ α Unit := do
  expectKind a .node
  change a ({ · with content := .node (some v) })

/-- Asks an allocator for a block. The new block is linked to itself. -/
def allocate (source : Allocator) (content : Content η α) : Action η σ α Addr := do
  let s ← get
  let a := s.heap.size
  if s.serves source then
    modify fun s => { s with budgets := s.budgetsAfter source }
    modify fun s => { s with heap := s.heap.push content }
    emit (.served source a content.kind)
    return a
  else
    emit (.refused source content.kind)
    throw (.refused content.kind)

/-- Gives a block back, through an allocator that need not be the one it came from. -/
def release (target : Allocator) (a : Addr) (kind : BlockKind) : Action η σ α Unit := do
  expectKind a kind
  modify fun s => { s with heap := s.heap.erase a }.log (.released target a kind)

/-! ## Calls of hooks -/

/-- Takes over the state that a hook left behind, and records the call. -/
def noteCall (e : Event η α) (hookState : σ) : Action η σ α Unit :=
  modify fun s => { s with hookState }.log e

/-- The outcome of a hook's call. -/
def Reply.settle (kind : HookKind) : Reply β → Action η σ α β
  | .returns b => pure b
  | .panics => throw (.panicked kind)

def callDup (B : Behaviour η σ α) (h : η) (v : α) : Action η σ α (Option α) := do
  let (reply, hookState) := B.dup h (← get).hookState v
  noteCall (.dup h v reply) hookState
  reply.settle .dup

def callFree (B : Behaviour η σ α) (h : η) (v : α) : Action η σ α Unit := do
  let (reply, hookState) := B.free h (← get).hookState v
  noteCall (.free h v reply) hookState
  reply.settle .free

/-- Hands a destroyed value to a hook while a panic is under way. -/
def callFreeUnwinding (B : Behaviour η σ α) (h : η) (v : α) : Action η σ α Unit := do
  noteCall (.free h v (.returns ())) (B.freeUnwinding h (← get).hookState v)

/-- Has a hook match a value with a key. -/
def callMatching (B : Behaviour η σ α) (h : η) (v key : α) : Action η σ α Bool := do
  let (reply, hookState) := B.matching h (← get).hookState v key
  noteCall (.matching h v key reply) hookState
  reply.settle .matching

/-- Whether values are destroyed in the ordinary course of things or because a panic is under way. -/
inductive Course where
  | ordinary
  | unwinding
deriving DecidableEq, Repr

/-- Destroys a value: the hook for destroyed values takes it if there is one. -/
def discard (B : Behaviour η σ α) (course : Course) (hooks : Hooks η) (v : α) : Action η σ α Unit :=
  match hooks.free, course with
  | none, _ => emit (.dropped v)
  | some h, .ordinary => callFree B h v
  | some h, .unwinding => callFreeUnwinding B h v

end RingList
