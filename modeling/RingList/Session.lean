import RingList.Session.Report
import RingList.World.Run

/-!
# Sessions

A session is a world of values of one type, with numbers for its lists, nodes and cursors. A number
is never used again. The nodes that have no number yet get the next ones after every command, list by
list in the order of their numbers, and each list from its head to its tail.
-/

set_option autoImplicit false

namespace RingList

/-- A session. -/
structure Session where
  type : ValueType
  /-- The base texts that slices are cut from. -/
  bases : Array String := #[]
  /-- Whether blocks come from limited allocators. -/
  limited : Bool := false
  world : World Hook HookState Value
  lists : Array Addr := #[]
  nodes : Array Addr := #[]
  /-- The numbers of the nodes by address. -/
  handles : Array (Option Nat) := #[]
  cursors : Array Nat := #[]
  objects : List (Nat × String) := []

namespace Session

/-- A step of a session: a result or a refusal, and the session afterwards in both cases. -/
abbrev Step (β : Type) := EStateM Refusal Session β

def refuse {β : Type} (reason : Reason) : Step β := throw (.badCommand reason)

/-- The refusal that a stop is reported as. -/
def refusalOf (t : ValueType) : Stop → Refusal
  | .refused kind => .failed (.outOfMemory (kind.layout t.layout))
  | .notCopied => .failed .notCopied
  | .panicked hook => .panicked hook
  | .fault f => .broken f

def reasonOf : Misuse → Reason
  | .unknownList | .unknownIterator => .list
  | .foreignNode => .handle
  | .unknownCursor | .staleCursor => .cursor
  | .unknownAllocator => .create
  | .selfJoin => .joinWithItself
  | .wildPosition => .index
  | .wouldAbort => .wouldAbort

/-- The world of a session, and the session without it. A world that is held only once is changed in
place; the call boundary keeps the session from holding it as well. -/
@[noinline] def handOver (s : Session) : World Hook HookState Value × Session :=
  (s.world, { s with world := .start #[] {} })

/-- Lets a world be worked on, and answers what comes of it. -/
def workOn (work : World Hook HookState Value → Outcome Hook Value × World Hook HookState Value) :
    Step (Answer Hook Value) := fun s =>
  let (world, s) := s.handOver
  let (outcome, world) := work world
  let s := { s with world }
  match outcome with
  | .answered a => .ok a s
  | .stopped why => .error (refusalOf s.type why) s
  | .misused .staleCursor => .error .staleCursor s
  | .misused why => .error (.badCommand (reasonOf why)) s

/-- Carries out an operation. -/
def perform (op : Op Hook Value) : Step (Answer Hook Value) := do
  let t := (← get).type
  workOn fun world => world.perform t.behaviour op

/-- Carries out an operation whose answer does not matter. -/
def carryOut (op : Op Hook Value) : Step Unit := do let _ ← perform op

/-- Deletes a node that a cursor of the list has just returned, so that it is in the list. -/
def deleteReturned (l node : Addr) : Step Unit := do
  let t := (← get).type
  let _ ← workOn fun world => world.proceed t.behaviour (.delete l node)

def read {β : Type} (act : Action Hook HookState Value β) : Step β := do
  let s ← get
  match s.world.read act with
  | .ok b => return b
  | .error why => throw (refusalOf s.type why)

/-! ## Numbers -/

def handle? (s : Session) (a : Addr) : Option Nat := (s.handles[a]?).join

def handleOf (a : Addr) : Step Nat := do return ((← get).handle? a).getD 0

/-- The number of a node, if there is a node. -/
def handleOf? : Option Addr → Step (Option Nat)
  | none => pure none
  | some a => some <$> handleOf a

/-- Makes room for the numbers of new blocks. -/
def makeRoom (s : Session) : Session :=
  let missing := s.world.store.heap.size - s.handles.size
  if missing = 0 then s else { s with handles := s.handles ++ Array.replicate missing none }

/-- Gives the next number to a node that has none. -/
def numberNode (s : Session) (a : Addr) : Session :=
  match s.handle? a with
  | some _ => s
  | none =>
    let s := s.makeRoom
    let s := { s with handles := s.handles.setIfInBounds a (some s.nodes.size) }
    { s with nodes := s.nodes.push a }

def live (s : Session) (numbers : List Nat) : List (Nat × Addr) :=
  numbers.filterMap fun n =>
    match s.lists[n]? with
    | some l => if s.world.holdings.lists.contains l then some (n, l) else none
    | none => none

def liveLists (s : Session) : List (Nat × Addr) := s.live (List.range s.lists.size)

/-- Gives numbers to the nodes of the numbered lists that have none. There are such nodes only if there
are new blocks. -/
def numberNodes (s : Session) (numbers : List Nat) : Session :=
  if s.world.store.heap.size ≤ s.handles.size then s else
    ((s.live numbers).flatMap fun (_, l) => s.world.nodes l).foldl numberNode s.makeRoom

def numberList (l : Addr) : Step Result := do
  let n := (← get).lists.size
  modify fun s => { s with lists := s.lists.push l }
  return .number n

def numberCursor (c : Nat) : Step Result := do
  let n := (← get).cursors.size
  modify fun s => { s with cursors := s.cursors.push c }
  return .number n

/-! ## Names in commands -/

def listNamed (n : Option Nat) : Step Addr := do
  let s ← get
  match n.bind fun n => s.lists[n]? with
  | some l => if s.world.holdings.lists.contains l then return l else refuse .list
  | none => refuse .list

/-- The node of this number, which has to be in the list. -/
def nodeNamed (l : Addr) (h : Option Nat) : Step Addr := do
  let s ← get
  match h.bind fun h => s.nodes[h]? with
  | some node => if s.world.holds l node then return node else refuse .handle
  | none => refuse .handle

/-- The node of this number, which has to be in some list. -/
def nodeAnywhere (h : Option Nat) : Step Addr := do
  let s ← get
  match h.bind fun h => s.nodes[h]? with
  | some node =>
    if s.world.holdings.lists.any fun l => s.world.holds l node then return node
    else refuse .handle
  | none => refuse .handle

def cursorNamed (n : Option Nat) : Step Nat := do
  let s ← get
  match n.bind fun n => s.cursors[n]? with
  | some c => return c
  | none => refuse .cursor

/-! ## Values and hooks in commands -/

def withHookState (s : Session) (hookState : HookState) : Session :=
  { s with world := { s.world with store := { s.world.store with hookState } } }

def readValue (lit : Literal) : Step Value := do
  let s ← get
  match s.type, lit with
  | .object _, .newObject text =>
    let (v, hookState) := s.world.store.hookState.addObject text
    let id := s.world.store.hookState.objects
    set { s.withHookState hookState with objects := (id, text) :: s.objects }
    return v
  | t, lit =>
    match t.read s.bases s.objects lit with
    | some v => return v
    | none => refuse .value

def readKey : Key → Step Value
  | .value lit => readValue lit
  | .node h => do
    let node ← nodeAnywhere h
    read (RingList.value node)

def newCounter (n : Int) : Step Nat := do
  let s ← get
  let hookState := s.world.store.hookState
  set (s.withHookState (hookState.addCounter n))
  return hookState.counters.size

def copyHook (form : Option (Tagged CopyRule)) : Step Hook := do
  match form with
  | some hook =>
    if (← get).type.hasCopyRule hook.rule then
      return .copying (← newCounter hook.rule.start) hook
    else refuse .hook
  | none => refuse .hook

/-- The hook for destroyed values that a command describes. -/
def releaseHook (form : Option (Tagged ReleaseRule)) : Step Hook := do
  match form with
  | some hook => return .releasing hook
  | none => refuse .hook

def matchHook (form : Option (Tagged MatchRule)) : Step Hook := do
  match form with
  | some hook =>
    if (← get).type.hasMatchRule hook.rule then
      return .matching (← newCounter hook.rule.start) hook
    else refuse .hook
  | none => refuse .hook

/-- Refuses a command that the type of values does not support. -/
def require (supported : Bool) : Step Unit := unless supported do refuse .unsupported

end Session

end RingList
