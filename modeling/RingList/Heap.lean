import RingList.Hooks
import RingList.Layout

/-!
# The heap

Blocks of memory by address. A block holds two links and its content: a *header* holds the record of
a list, a *node* holds a value once one has been written. Addresses count the blocks in the order in
which they were handed out and are never used again, so a block that is gone stays gone.

The nodes of a list form a ring with its header: following `next` from the header meets every node
once and comes back. `Heap.nodes` and `Heap.entries` are this walk as a list.
-/

set_option autoImplicit false

namespace RingList

/-- The address of a block. -/
abbrev Addr := Nat

/-- Where the blocks of a list come from. -/
inductive Allocator where
  | global
  /-- The allocator of this number, which serves a limited number of requests. -/
  | limited (number : Nat)
deriving DecidableEq, Repr

/-- What a list is besides its ring: its length, its hooks and its allocator. -/
structure Record (η : Type) where
  length : Nat
  hooks : Hooks η
  allocator : Allocator
deriving DecidableEq, Repr

/-- What a block holds besides its links. -/
inductive Content (η α : Type) where
  | header (record : Record η)
  /-- A node whose value may not be written yet. -/
  | node (value : Option α)
deriving DecidableEq, Repr

def Content.kind {η α : Type} : Content η α → BlockKind
  | .header _ => .header
  | .node _ => .node

/-- A live block. -/
structure Cell (η α : Type) where
  next : Addr
  prev : Addr
  content : Content η α
deriving DecidableEq, Repr

/-- The blocks handed out so far, each live or released. -/
structure Heap (η α : Type) where
  cells : Array (Option (Cell η α)) := #[]
deriving DecidableEq, Repr

namespace Heap

variable {η α : Type}

def size (h : Heap η α) : Nat := h.cells.size

def get? (h : Heap η α) (a : Addr) : Option (Cell η α) := (h.cells[a]?).join

/-- Changes the block at an address, if it is live. -/
def update (h : Heap η α) (a : Addr) (f : Cell η α → Cell η α) : Heap η α :=
  ⟨h.cells.setIfInBounds a ((h.get? a).map f)⟩

/-- A new block, linked to itself. Its address is the size of the heap before. -/
def push (h : Heap η α) (content : Content η α) : Heap η α :=
  ⟨h.cells.push (some ⟨h.size, h.size, content⟩)⟩

def erase (h : Heap η α) (a : Addr) : Heap η α := ⟨h.cells.setIfInBounds a none⟩

theorem lt_size_of_get? {h : Heap η α} {a : Addr} {c : Cell η α} (hc : h.get? a = some c) :
    a < h.size := by
  unfold get? size at *
  grind

@[grind =]
theorem get?_update (h : Heap η α) (a b : Addr) (f : Cell η α → Cell η α) :
    (h.update a f).get? b = if b = a then (h.get? a).map f else h.get? b := by
  unfold update get?
  grind

@[grind =]
theorem get?_push (h : Heap η α) (content : Content η α) (b : Addr) :
    (h.push content).get? b =
      if b = h.size then some ⟨h.size, h.size, content⟩ else h.get? b := by
  unfold push get? size
  grind

@[grind =]
theorem get?_erase (h : Heap η α) (a b : Addr) :
    (h.erase a).get? b = if b = a then none else h.get? b := by
  unfold erase get?
  grind

@[simp, grind =]
theorem size_update (h : Heap η α) (a : Addr) (f : Cell η α → Cell η α) :
    (h.update a f).size = h.size := by simp [update, size]

@[simp, grind =]
theorem size_push (h : Heap η α) (content : Content η α) :
    (h.push content).size = h.size + 1 := by simp [push, size]

@[simp, grind =]
theorem size_erase (h : Heap η α) (a : Addr) : (h.erase a).size = h.size := by simp [erase, size]

/-- An address space of 64 bits has room for this many blocks of two words. No address is handed out
twice, so this bounds the blocks that were ever handed out, and not only the live ones. -/
def capacity : Nat := 1 <<< 60

/-- Whether there is an address left to hand out. -/
def hasRoom (h : Heap η α) : Bool := decide (h.size < capacity)

/-! ## The ring of a list as a list -/

/-- The nodes met by at most `fuel` links from `a` on until the header is met. -/
def nodesFrom (h : Heap η α) (header : Addr) : Nat → Addr → List Addr
  | 0, _ => []
  | fuel + 1, a =>
    if a = header then [] else
      match h.get? a with
      | none => []
      | some c => a :: h.nodesFrom header fuel c.next

/-- The nodes of the list with this header, in order. -/
def nodes (h : Heap η α) (header : Addr) : List Addr :=
  match h.get? header with
  | none => []
  | some c => h.nodesFrom header h.size c.next

/-- Whether a node is met by at most `fuel` links from `a` on until the header is met. -/
def meets (h : Heap η α) (header node : Addr) : Nat → Addr → Bool
  | 0, _ => false
  | fuel + 1, a =>
    if a = header then false else
      match h.get? a with
      | none => false
      | some c => node == a || h.meets header node fuel c.next

/-- Whether a node is in the list with this header. -/
def hasNode (h : Heap η α) (header node : Addr) : Bool :=
  match h.get? header with
  | none => false
  | some c => h.meets header node h.size c.next

theorem meets_eq_contains (h : Heap η α) (header node : Addr) (fuel : Nat) (a : Addr) :
    h.meets header node fuel a = (h.nodesFrom header fuel a).contains node := by
  fun_induction nodesFrom h header fuel a <;> simp_all [meets, Bool.beq_eq_decide_eq]

theorem hasNode_eq_contains (h : Heap η α) (header node : Addr) :
    h.hasNode header node = (h.nodes header).contains node := by
  unfold hasNode nodes
  cases h.get? header <;> simp [meets_eq_contains]

/-- The first node of the list with this header, by the header's link to it. -/
def first? (h : Heap η α) (header : Addr) : Option Addr :=
  (h.get? header).bind fun c => if c.next = header then none else some c.next

/-- The last node of the list with this header, by the header's link to it. -/
def last? (h : Heap η α) (header : Addr) : Option Addr :=
  (h.get? header).bind fun c => if c.prev = header then none else some c.prev

def value? (h : Heap η α) (a : Addr) : Option α :=
  match h.get? a with
  | some ⟨_, _, .node v⟩ => v
  | _ => none

/-- The nodes of a list with their values, in order. -/
def entries (h : Heap η α) (header : Addr) : List (Addr × α) :=
  (h.nodes header).filterMap fun a => (h.value? a).map (a, ·)

def record? (h : Heap η α) (header : Addr) : Option (Record η) :=
  match h.get? header with
  | some ⟨_, _, .header r⟩ => some r
  | _ => none

end Heap

end RingList
