import RingList.Error
import RingList.Session.Command
import RingList.Store

/-!
# Reports of a session

What a session says about each command: a result or a refusal, what could be observed on the way, and
the states of the lists that the command touched.
-/

set_option autoImplicit false

namespace RingList.Session

/-- What is wrong with a command. -/
inductive Reason where
  | list
  | handle
  | value
  | hook
  | cursor
  | direction
  | create
  | collect
  | after
  | range
  | wouldAbort
  | joinWithItself
  | unsupported
  | index
  | refill
  | unknown
deriving DecidableEq, Repr

def Reason.message : Reason → String
  | .list => "list"
  | .handle => "handle"
  | .value => "value"
  | .hook => "hook"
  | .cursor => "cursor"
  | .direction => "dir"
  | .create => "create"
  | .collect => "from_iter"
  | .after => "after"
  | .range => "range"
  | .wouldAbort => "would abort"
  | .joinWithItself => "join with itself"
  | .unsupported => "unsupported"
  | .index => "index"
  | .refill => "refill"
  | .unknown => "unknown"

/-- Why a command has no result. -/
inductive Refusal where
  /-- The command cannot be carried out. -/
  | badCommand (reason : Reason)
  | staleCursor
  | failed (e : Error)
  | panicked (hook : HookKind)
  | broken (f : Fault)
deriving DecidableEq, Repr

def panicMessage : HookKind → String
  | .dup => "dup panic"
  | .free => "free panic"
  | .matching => "match panic"

/-- The answer to a call of an iterator. -/
inductive CallResult where
  | value (v : Option Value)
  | length (n : Nat)
  /-- The least and the greatest number of values left, which are the same. -/
  | size (n : Nat)
  | debug (text : Option String)
  | values (vs : List Value)
  | taken (vs : List Value)
  | unknown
deriving DecidableEq, Repr

/-- The result of a command. Lists, nodes and cursors are given by number. -/
inductive Result where
  | nothing
  | number (n : Nat)
  | handle (h : Option Nat)
  | handles (hs : List Nat)
  | value (v : Value)
  | optional (v : Option Value)
  | entry (e : Option (Nat × Value))
  | verdict (b : Option Bool)
  | verdicts (bs : List Bool)
  | equality (b : Bool)
  | text (s : String)
  | hooks (debug : String) (dup free matching : Bool)
  | direction (d : Direction)
  | globalAllocator
  | limitedAllocator (number : Nat) (left : Option Nat)
  | calls (rs : List CallResult)
deriving DecidableEq, Repr

/-- What could be observed during a command. -/
inductive Notice where
  | served (number : Nat) (layout : Layout)
  | refused (number : Nat) (layout : Layout)
  | released (number : Nat) (layout : Layout)
  | dup (tag : String) (v : Value)
  | free (tag : String) (v : Value)
  | matching (tag : String) (v key : Value)
  | dropped (v : Value)
deriving DecidableEq, Repr

/-- The nodes of a list as met forwards, with their values, and as met backwards. -/
structure Walks where
  forward : List (Nat × Value)
  backward : List Nat
deriving DecidableEq, Repr

/-- The state of a list. -/
structure ListState where
  list : Nat
  length : Nat
  isEmpty : Bool
  head : Option Nat
  tail : Option Nat
  front : Option Value
  back : Option Value
  /-- Left out for long lists. -/
  walks : Option Walks
deriving DecidableEq, Repr

/-- What a session says about a command. -/
structure Report where
  outcome : Except Refusal Result
  notices : List Notice
  states : List ListState

end RingList.Session
