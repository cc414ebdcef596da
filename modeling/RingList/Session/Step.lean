import RingList.Session.Iterator
import RingList.Session.Show

/-!
# Carrying out commands

Each command is checked in a fixed order: the list first, then the parts of the command in the order
in which they are written. What is refused has changed nothing, but for the objects that were made
for it.
-/

set_option autoImplicit false

namespace RingList.Session

/-! ## Results -/

/-- The result of an operation that answers nothing. -/
def nothing (op : Op Hook Value) : Step Result := do
  carryOut op
  return .nothing

/-- The result of an operation that answers a node. -/
def handleResult (op : Op Hook Value) : Step Result := do
  match ← perform op with
  | .node node => do
    modify fun s => node.elim s s.numberNode
    return .handle (← handleOf? node)
  | _ => return .nothing

/-- The result of an operation that may answer a value. -/
def optionalResult (op : Op Hook Value) : Step Result := do
  match ← perform op with
  | .value v => return .optional v
  | _ => return .nothing

/-- The result of an operation that answers a new list. -/
def listResult (op : Op Hook Value) : Step Result := do
  match ← perform op with
  | .list l => numberList l
  | _ => return .nothing

/-- The result of an operation that answers a new cursor. -/
def cursorResult (op : Op Hook Value) : Step Result := do
  match ← perform op with
  | .cursor c => numberCursor c
  | _ => return .nothing

/-- A node with its value, if there is a node. -/
def entryResult : Option Addr → Step Result
  | none => return .entry none
  | some node => do return .entry (some (← handleOf node, ← read (RingList.value node)))

/-- The result of an operation that answers a node, which is shown with its value. -/
def nodeEntryResult (op : Op Hook Value) : Step Result := do
  match ← perform op with
  | .node node => entryResult node
  | _ => return .nothing

/-! ## Commands to one list -/

/-- The values of `count` whole numbers from `start` on. -/
def readRange (start : Int) : Nat → Step (List Value)
  | 0 => return []
  | count + 1 => do
    let v ← readValue (.integer start)
    return v :: (← readRange (start + 1) count)

/-- Adds `count` values at the back, which are read only if the list's allocator serves as many
requests. -/
def extendWith (l : Addr) (count : Nat) (values : Step (List Value)) : Step Result := do
  let enough ← match ← read (RingList.allocator l) with
    | .global => pure true
    | .limited k => do
      let budget := ((← get).world.store.budgets[k]?).join
      pure (budget.all (count ≤ ·))
  unless enough do refuse .wouldAbort
  carryOut (.extend l (← values))
  return .nothing

/-- Walks a cursor of a list and deletes every node that the hook matches with the key. At most `fuel`
nodes are met. -/
def sweepFrom (l : Addr) (test : Hook) (key : Value) (c : Nat) : Nat → Step (List Nat)
  | 0 => return []
  | fuel + 1 => do
    match ← perform (.step c) with
    | .node (some node) =>
      let h ← handleOf node
      match ← perform (.callMatching test (← read (RingList.value node)) key) with
      | .truth true =>
        deleteReturned l node
        return h :: (← sweepFrom l test key c fuel)
      | _ => sweepFrom l test key c fuel
    | _ => return []

def install (l : Addr) (kind : HookKind) (h : Hook) : Step Result := nothing (.installHook l kind h)

/-- The debug text of what hooks are installed. -/
def hooksResult (hs : Hooks Hook) : Result :=
  .hooks ("Methods \x7b dup: " ++ toString hs.dup.isSome ++ ", free: " ++ toString hs.free.isSome ++
    ", matches: " ++ toString hs.matching.isSome ++ " \x7d")
    hs.dup.isSome hs.free.isSome hs.matching.isSome

def runList (l : Addr) : ListCommand → Step Result
  | .duplicate => do
    require (← get).type.hasClone
    listResult (.duplicate l .clone)
  | .duplicateWith fallback => do listResult (.duplicate l (← copyHook fallback))
  | .add .front v => do handleResult (.addHead l (← readValue v))
  | .add .back v => do handleResult (.addTail l (← readValue v))
  | .insert anchor after v => do
    let anchor ← nodeNamed l anchor
    match after with
    | some after => handleResult (.insert l anchor (← readValue v) after)
    | none => refuse .after
  | .extend literals => extendWith l literals.length (literals.mapM readValue)
  | .extendRange start count =>
    match start, count with
    | some start, some count =>
      extendWith l count (readRange start count)
    | _, _ => refuse .range
  | .delete h => do nothing (.delete l (← nodeNamed l h))
  | .clear => nothing (.clear l)
  | .rotate => nothing (.rotate l)
  | .drop => nothing (.destroy l)
  | .pop .front => optionalResult (.popFront l)
  | .pop .back => optionalResult (.popBack l)
  | .set h v => do
    let node ← nodeNamed l h
    optionalResult (.exchange l node (← readValue v))
  | .setEnd .front v => do optionalResult (.setFront l (← readValue v))
  | .setEnd .back v => do optionalResult (.setBack l (← readValue v))
  | .join other => do nothing (.join l (← listNamed other))
  | .sweep test direction key => do
    let test ← matchHook test
    match direction with
    | none => refuse .direction
    | some d =>
      let key ← readValue key
      match ← perform (.cursor l d) with
      | .cursor c => return .handles (← sweepFrom l test key c (← get).world.store.heap.size)
      | _ => return .nothing
  | .setDup hook => do install l .dup (← copyHook hook)
  | .setFree hook => do install l .free (← releaseHook hook)
  | .setMatching hook => do install l .matching (← matchHook hook)
  | .takeHooks source => do
    let source ← listNamed source
    nothing (.setHooks l (← read (RingList.hooks source)))
  | .removeHooks => nothing (.setHooks l {})
  | .hooks => do return hooksResult (← read (RingList.hooks l))
  | .callDup v => do
    match (← read (RingList.hooks l)).dup with
    | some h => optionalResult (.callDup h (← readValue v))
    | none => return .nothing
  | .callFree v => do
    match (← read (RingList.hooks l)).free with
    | some h =>
      carryOut (.callFree h (← readValue v))
      return .verdict none
    | none => return .nothing
  | .callMatching v key => do
    match (← read (RingList.hooks l)).matching with
    | some h =>
      let v ← readValue v
      match ← perform (.callMatching h v (← readKey key)) with
      | .truth b => return .verdict (some b)
      | _ => return .nothing
    | none => return .nothing
  | .state | .dump => return .nothing
  | .index i =>
    match i with
    | some i => nodeEntryResult (.index l i)
    | none => refuse .index
  | .next h => do handleResult (.nextNode l (← nodeNamed l h))
  | .prev h => do handleResult (.prevNode l (← nodeNamed l h))
  | .value h => do return .value (← read (RingList.value (← nodeNamed l h)))
  | .search key => do
    let key ← readKey key
    require (← get).type.hasIdentity
    handleResult (.search l key .identity)
  | .searchWith fallback key => do
    let fallback ← matchHook fallback
    handleResult (.search l (← readKey key) fallback)
  | .equal other => do
    let other ← listNamed other
    require (← get).type.hasEquality
    match ← perform (.equal l other .equality) with
    | .truth b => return .equality b
    | _ => return .nothing
  | .hash => do
    let t := (← get).type
    require t.hasHash
    return .text (Text.hex (← read (RingList.hash t.bytes l)))
  | .debug pretty => do
    let t := (← get).type
    require t.hasDebug
    return .text (t.debugAll pretty (← read (RingList.values l)))
  | .allocator => do
    match ← read (RingList.allocator l) with
    | .global => return .globalAllocator
    | .limited k => return .limitedAllocator k ((← get).world.store.budgets[k]?).join
  | .iterate calls => do return .calls (← callsBorrowed (← read (Iter.start l)) calls)
  | .intoIter calls => do
    carryOut (.intoIter l)
    let results ← calls.mapM (callOwned l)
    carryOut (.dropIter l)
    return .calls results
  | .cursor direction =>
    match direction with
    | some d => cursorResult (.cursor l d)
    | none => refuse .direction
  | .rewind cursor direction => do nothing (.rewind (← cursorNamed cursor) l direction)
  | .unknown => refuse .unknown

/-! ## Commands of a session -/

def directionName : Direction → String
  | .forward => "Forward"
  | .backward => "Backward"

def cursorText (next : Option Nat) (d : Direction) : String :=
  let place := match next with
    | some h => "Some(NodeRef(#" ++ toString h ++ "))"
    | none => "None"
  "Cursor \x7b next: " ++ place ++ ", direction: " ++ directionName d ++ " \x7d"

def directionOf (c : Nat) : Step Direction := do
  match ← perform (.direction c) with
  | .direction d => return d
  | _ => return .forward

/-- The allocator that a new list is to use. -/
def allocatorFor (how : Option Maker) (number : Nat) : Step Allocator := do
  let s ← get
  match how with
  | none => refuse .create
  | some maker =>
    if !s.limited then return .global
    match maker with
    | .within =>
      if s.world.hasAllocator (.limited number) then return .limited number else refuse .create
    | .plain => refuse .create

def run : Command → Step Result
  | .create how number => do listResult (.create (← allocatorFor how number))
  | .collect literals => do
    let values ← literals.mapM readValue
    if (← get).limited then refuse .collect
    listResult (.collect values)
  | .same a b => do
    let a ← readValue a
    let b ← readValue b
    require (← get).type.hasIdentity
    return .verdicts [a.same a, a.same b, b.same a]
  | .cursorNext cursor => do nodeEntryResult (.step (← cursorNamed cursor))
  | .cursorPeek cursor => do handleResult (.peek (← cursorNamed cursor))
  | .cursorDirection cursor => do return .direction (← directionOf (← cursorNamed cursor))
  | .cursorClone cursor => do cursorResult (.cloneCursor (← cursorNamed cursor))
  | .cursorDebug cursor => do
    let c ← cursorNamed cursor
    match ← perform (.peek c) with
    | .node node => return .text (cursorText (← handleOf? node) (← directionOf c))
    | _ => return .nothing
  | .refill number budget => do
    match number, budget with
    | some k, some budget =>
      if (← get).world.hasAllocator (.limited k) then nothing (.refill k budget)
      else refuse .refill
    | _, _ => refuse .refill
  | .toList list command => do runList (← listNamed list) command

/-- The lists that a command touched, by increasing number: their states are reported, and only they
can have new nodes. -/
def touched (outcome : Except Refusal Result) : Command → List Nat
  | .create .. | .collect _ =>
    match outcome with
    | .ok (.number n) => [n]
    | _ => []
  | .toList list command =>
    if !command.touches then [] else
    match command, outcome with
    | _, .error (.badCommand .list) | _, .error (.badCommand .joinWithItself) => []
    | .join other, _ => (list.toList ++ other.toList).mergeSort
    | .duplicate, .ok (.number n) | .duplicateWith _, .ok (.number n) => list.toList ++ [n]
    | _, _ => list.toList
  | _ => []

/-- Whether a command asks for the states of lists with all their nodes. -/
def wantsAll : Command → Bool
  | .toList _ .dump => true
  | _ => false

def step (s : Session) (command : Command) : Report × Session :=
  let start := s.world.store.events.size
  let (outcome, after) : Except Refusal Result × Session := match run command s with
    | .ok r after => (.ok r, after)
    | .error e after => (.error e, after)
  let numbers := touched outcome command
  let after := after.numberNodes numbers
  let states := match statesOf (wantsAll command) numbers after with
    | .ok states _ => states
    | .error _ _ => []
  (⟨outcome, after.noticesFrom start, states⟩, after)

end RingList.Session
