import RingList.Cursor

/-!
# Worlds

A world is a store together with what a program holds on to: its lists, its owning iterators and its
cursors. A cursor may be used as long as its list is there and every node that left the list since the
cursor was seated was the node that the cursor had returned last; it is *stale* otherwise.
-/

set_option autoImplicit false

namespace RingList

variable {η σ α : Type}

/-- A cursor of a program. -/
structure Seat where
  cursor : Cursor
  /-- What the last step since the cursor was seated returned. -/
  last : Option Addr := none
  stale : Bool := false
deriving DecidableEq, Repr

namespace Seat

def list (s : Seat) : Addr := s.cursor.header

/-- The seat after nodes left a list: any other than the last one returned makes it stale. -/
def afterDeparture (s : Seat) (l : Addr) (nodes : List Addr) : Seat :=
  if s.list = l ∧ nodes.any (fun node => some node != s.last) then { s with stale := true } else s

/-- The seat after a list is gone. -/
def afterEnd (s : Seat) (l : Addr) : Seat :=
  if s.list = l then { s with stale := true } else s

end Seat

/-- What a program holds on to. -/
structure Holdings where
  /-- The lists, by their headers, in the order of their creation. -/
  lists : List Addr := []
  /-- The lists that owning iterators have taken over. -/
  iterators : List Addr := []
  seats : Array Seat := #[]
deriving DecidableEq, Repr

namespace Holdings

/-- Nodes leave a list. -/
def depart (t : Holdings) (l : Addr) (nodes : List Addr) : Holdings :=
  { t with seats := t.seats.map (·.afterDeparture l nodes) }

def endList (t : Holdings) (l : Addr) : Holdings :=
  { t with lists := t.lists.erase l, seats := t.seats.map (·.afterEnd l) }

def endIterator (t : Holdings) (it : Addr) : Holdings :=
  { t with iterators := t.iterators.erase it }

def addList (t : Holdings) (l : Addr) : Holdings := { t with lists := t.lists ++ [l] }

def addIterator (t : Holdings) (it : Addr) : Holdings :=
  { t with iterators := t.iterators ++ [it] }

def addSeat (t : Holdings) (s : Seat) : Holdings := { t with seats := t.seats.push s }

def setSeat (t : Holdings) (c : Nat) (s : Seat) : Holdings :=
  { t with seats := t.seats.setIfInBounds c s }

end Holdings

/-- A store and what a program holds on to in it. -/
structure World (η σ α : Type) where
  store : Store η σ α
  holdings : Holdings := {}

namespace World

/-- A world without lists, with these budgets of the limited allocators. -/
def start (budgets : Array (Option Nat)) (hookState : σ) : World η σ α :=
  { store := { budgets, hookState } }

def nodes (w : World η σ α) (l : Addr) : List Addr := w.store.heap.nodes l

def holds (w : World η σ α) (l node : Addr) : Bool := w.store.heap.hasNode l node

def hasAllocator (w : World η σ α) : Allocator → Bool
  | .global => true
  | .limited k => decide (k < w.store.budgets.size)

def read {β : Type} (w : World η σ α) (act : Action η σ α β) : Except Stop β :=
  match act w.store with
  | .ok b _ => .ok b
  | .error stop _ => .error stop

end World

end RingList
