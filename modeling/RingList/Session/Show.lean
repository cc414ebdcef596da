import RingList.Session

/-!
# What a session shows

The states of lists and the notices of events. A long list is shown without its nodes unless they are
asked for. Events of the general-purpose allocator, calls of what comes with the type of values, and
the ends of values that do not report them are not shown.
-/

set_option autoImplicit false

namespace RingList.Session

/-- The most nodes that are shown unasked. -/
def shownNodes : Nat := 40

/-- The nodes of a list as met forwards and backwards. -/
def walks (l : Addr) : Step Walks := do
  let forward ← (← read (nodesAlong l .forward)).mapM fun node => do
    return (← handleOf node, ← read (RingList.value node))
  let blocks := (← get).world.store.heap.size
  let backward ← (← read (do nodesBefore l blocks (← RingList.tail l))).mapM handleOf
  return { forward, backward }

def listState (all : Bool) (number : Nat) (l : Addr) : Step ListState := do
  let length ← read (RingList.length l)
  return {
    list := number
    length
    isEmpty := ← read (RingList.isEmpty l)
    head := ← handleOf? (← read (RingList.head l))
    tail := ← handleOf? (← read (RingList.tail l))
    front := ← read (RingList.front l)
    back := ← read (RingList.back l)
    walks := ← if all || length ≤ shownNodes then some <$> walks l else pure none }

/-- The states of those of the numbered lists that are there. -/
def statesOf (all : Bool) (numbers : List Nat) : Step (List ListState) := do
  ((← get).live numbers).mapM fun (n, l) => listState all n l

def notice (t : ValueType) : Event Hook Value → Option Notice
  | .served (.limited k) _ kind => some (.served k (kind.layout t.layout))
  | .refused (.limited k) kind => some (.refused k (kind.layout t.layout))
  | .released (.limited k) _ kind => some (.released k (kind.layout t.layout))
  | .dup (.copying _ hook) v _ => some (.dup hook.tag v)
  | .free (.releasing hook) v _ => some (.free hook.tag v)
  | .matching (.matching _ hook) v key _ => some (.matching hook.tag v key)
  | .dropped v => if t.reportsEnd then some (.dropped v) else none
  | _ => none

/-- The notices of the events from a number on. -/
def noticesFrom (s : Session) (start : Nat) : List Notice :=
  (s.world.store.events.extract start).toList.filterMap (notice s.type)

end RingList.Session
