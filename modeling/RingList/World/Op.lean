import RingList.Compare
import RingList.Copy
import RingList.Index
import RingList.Search
import RingList.Splice
import RingList.World

/-!
# Operations of a program

The operations on lists as data, so that whole runs can be spoken about. `Op.check` says what a
program has to keep to: it names lists, nodes and cursors that are there, and uses no stale cursor.
An operation that does not is refused and changes nothing.
-/

set_option autoImplicit false

namespace RingList

variable {η σ α : Type}

/-- An operation of a program. Lists and owning iterators are named by their headers, nodes by their
addresses, cursors by their numbers. -/
inductive Op (η α : Type) where
  | create (source : Allocator)
  | collect (vs : List α)
  | duplicate (l : Addr) (fallback : η)
  | addHead (l : Addr) (v : α)
  | addTail (l : Addr) (v : α)
  | insert (l anchor : Addr) (v : α) (after : Bool)
  | extend (l : Addr) (vs : List α)
  | delete (l node : Addr)
  | popFront (l : Addr)
  | popBack (l : Addr)
  | clear (l : Addr)
  | destroy (l : Addr)
  | rotate (l : Addr)
  | join (l other : Addr)
  | exchange (l node : Addr) (v : α)
  | setFront (l : Addr) (v : α)
  | setBack (l : Addr) (v : α)
  | installHook (l : Addr) (kind : HookKind) (h : η)
  | setHooks (l : Addr) (hooks : Hooks η)
  | callDup (h : η) (v : α)
  | callFree (h : η) (v : α)
  | callMatching (h : η) (v key : α)
  | head (l : Addr)
  | tail (l : Addr)
  | front (l : Addr)
  | back (l : Addr)
  | length (l : Addr)
  | isEmpty (l : Addr)
  | value (l node : Addr)
  | nextNode (l node : Addr)
  | prevNode (l node : Addr)
  | hooks (l : Addr)
  | allocator (l : Addr)
  | index (l : Addr) (i : Int)
  | search (l : Addr) (key : α) (fallback : η)
  | equal (l other : Addr) (rel : η)
  | iterate (l : Addr) (word : List End)
  | intoIter (l : Addr)
  | take (it : Addr) (e : End)
  | dropIter (it : Addr)
  | cursor (l : Addr) (d : Direction)
  | rewind (c : Nat) (l : Addr) (d : Direction)
  | step (c : Nat)
  | peek (c : Nat)
  | direction (c : Nat)
  | cloneCursor (c : Nat)
  | refill (k : Nat) (budget : Option Nat)
deriving DecidableEq, Repr

/-- What an operation answers. -/
inductive Answer (η α : Type) where
  | done
  | list (l : Addr)
  | iterator (it : Addr)
  | cursor (c : Nat)
  | node (node : Option Addr)
  | value (v : Option α)
  | count (n : Nat)
  | truth (b : Bool)
  | hooks (hooks : Hooks η)
  | allocator (a : Allocator)
  | taken (vs : List (Option α × Nat))
  | direction (d : Direction)
deriving DecidableEq, Repr

/-- What a program has to keep to. -/
inductive Misuse where
  | unknownList
  | foreignNode
  | unknownIterator
  | unknownCursor
  | staleCursor
  | unknownAllocator
  | selfJoin
  /-- A position that is no signed machine word. -/
  | wildPosition
  /-- An operation that ends the program for want of memory. -/
  | wouldAbort
deriving DecidableEq, Repr

namespace World

def expectList (w : World η σ α) (l : Addr) : Except Misuse Unit :=
  if w.holdings.lists.contains l then .ok () else .error .unknownList

/-- The list is there, and the node is in it. -/
def expectNode (w : World η σ α) (l node : Addr) : Except Misuse Unit := do
  w.expectList l
  if w.holds l node then .ok () else .error .foreignNode

def expectIterator (w : World η σ α) (it : Addr) : Except Misuse Unit :=
  if w.holdings.iterators.contains it then .ok () else .error .unknownIterator

def expectCursor (w : World η σ α) (c : Nat) : Except Misuse Seat :=
  match w.holdings.seats[c]? with
  | some s => .ok s
  | none => .error .unknownCursor

/-- The cursor is there and not stale. -/
def expectFresh (w : World η σ α) (c : Nat) : Except Misuse Seat := do
  let s ← w.expectCursor c
  if s.stale then .error .staleCursor else .ok s

/-- There is memory for `n` more blocks. An operation that cannot report a refused request ends the
program instead, so it may be asked for only if none is refused. -/
def expectSupply (w : World η σ α) (source : Allocator) (n : Nat) : Except Misuse Unit :=
  if w.store.supplies source n then .ok () else .error .wouldAbort

end World

namespace Op

/-- Whether a program may ask for the operation. -/
def check (w : World η σ α) : Op η α → Except Misuse Unit
  | .create source => if w.hasAllocator source then .ok () else .error .unknownAllocator
  | .refill k _ => if w.hasAllocator (.limited k) then .ok () else .error .unknownAllocator
  | .collect vs => w.expectSupply .global (vs.length + 1)
  | .extend l vs => do
    w.expectList l
    w.expectSupply ((w.store.heap.record? l).elim .global (·.allocator)) vs.length
  | .insert l node _ _ | .delete l node | .exchange l node _ | .value l node | .nextNode l node
  | .prevNode l node => w.expectNode l node
  | .join l other => do
    w.expectList l
    w.expectList other
    if l = other then .error .selfJoin else .ok ()
  | .equal l other _ => do
    w.expectList l
    w.expectList other
  | .index l i => do
    w.expectList l
    if -(1 <<< 63) ≤ i ∧ i < 1 <<< 63 then .ok () else .error .wildPosition
  | .callDup .. | .callFree .. | .callMatching .. => .ok ()
  | .take it _ | .dropIter it => w.expectIterator it
  | .rewind c l _ => do
    w.expectList l
    let _ ← w.expectCursor c
  | .direction c => do let _ ← w.expectCursor c
  | .step c | .peek c | .cloneCursor c => do let _ ← w.expectFresh c
  | .duplicate l _ | .addHead l _ | .addTail l _ | .popFront l | .popBack l | .clear l | .destroy l
  | .rotate l | .setFront l _ | .setBack l _ | .installHook l _ _ | .setHooks l _ | .head l | .tail l
  | .front l | .back l | .length l | .isEmpty l | .hooks l | .allocator l | .search l _ _
  | .iterate l _ | .intoIter l | .cursor l _ => w.expectList l

/-- What the operation takes from the program, however it ends: the nodes and lists that are gone, and
with them the cursors that go stale. -/
def takes (w : World η σ α) : Op η α → Holdings
  | .delete l node => w.holdings.depart l [node]
  | .popFront l => w.holdings.depart l (w.store.heap.first? l).toList
  | .popBack l => w.holdings.depart l (w.store.heap.last? l).toList
  | .clear l => w.holdings.depart l (w.nodes l)
  | .join _ other => w.holdings.depart other (w.nodes other)
  | .destroy l | .intoIter l => w.holdings.endList l
  | .dropIter it => w.holdings.endIterator it
  | _ => w.holdings

end Op

end RingList
