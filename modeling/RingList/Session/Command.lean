import RingList.Direction
import RingList.Iteration
import RingList.Value.Hook

/-!
# Commands of a session

A session names lists, nodes and cursors by numbers that it gives out itself. A part of a command that
is missing, or is not of the form that it should have, is `none`: when it is looked at decides which
complaint the command meets first.
-/

set_option autoImplicit false

namespace RingList.Session

/-- The ways to ask for a new list. -/
inductive Maker where
  /-- From the general-purpose allocator. -/
  | plain
  /-- From an allocator given by number. -/
  | within
deriving DecidableEq, Repr

/-- What a search looks for. -/
inductive Key where
  | value (v : Literal)
  /-- The value in a node, itself. -/
  | node (h : Option Nat)
deriving DecidableEq, Repr

/-- A call of an iterator. -/
inductive Call where
  | take (e : End)
  | length
  | size
  | last
  | debug
  /-- The values that a clone of the iterator yields, from an end. -/
  | peekRest (e : End)
  /-- The values that the iterator yields, from an end. -/
  | takeRest (e : End)
  | unknown
deriving DecidableEq, Repr

/-- A command to one list. -/
inductive ListCommand where
  | duplicate
  | duplicateWith (fallback : Option (Tagged CopyRule))
  | add (e : End) (v : Literal)
  | insert (anchor : Option Nat) (after : Option Bool) (v : Literal)
  | extend (values : List Literal)
  | extendRange (start : Option Int) (count : Option Nat)
  | delete (h : Option Nat)
  | clear
  | rotate
  | drop
  | pop (e : End)
  | set (h : Option Nat) (v : Literal)
  | setEnd (e : End) (v : Literal)
  | join (other : Option Nat)
  | sweep (test : Option (Tagged MatchRule)) (direction : Option Direction) (key : Literal)
  | setDup (hook : Option (Tagged CopyRule))
  | setFree (hook : Option (Tagged ReleaseRule))
  | setMatching (hook : Option (Tagged MatchRule))
  /-- Takes over the hooks of a list. -/
  | takeHooks (source : Option Nat)
  | removeHooks
  | hooks
  | callDup (v : Literal)
  | callFree (v : Literal)
  | callMatching (v : Literal) (key : Key)
  | state
  /-- The state with all nodes, however many there are. -/
  | dump
  | index (i : Option Int)
  | next (h : Option Nat)
  | prev (h : Option Nat)
  | value (h : Option Nat)
  | search (key : Key)
  | searchWith (fallback : Option (Tagged MatchRule)) (key : Key)
  | equal (other : Option Nat)
  | hash
  | debug (pretty : Bool)
  | allocator
  | iterate (calls : List Call)
  | intoIter (calls : List Call)
  | cursor (direction : Option Direction)
  | rewind (cursor : Option Nat) (direction : Direction)
  | unknown
deriving DecidableEq, Repr

/-- A command of a session. -/
inductive Command where
  | create (how : Option Maker) (number : Nat)
  | collect (values : List Literal)
  | same (a b : Literal)
  | cursorNext (cursor : Option Nat)
  | cursorPeek (cursor : Option Nat)
  | cursorDirection (cursor : Option Nat)
  | cursorClone (cursor : Option Nat)
  | cursorDebug (cursor : Option Nat)
  | refill (number : Option Nat) (budget : Option (Option Nat))
  | toList (list : Option Nat) (command : ListCommand)
deriving DecidableEq, Repr

namespace ListCommand

/-- Whether the state of the list is reported after the command. -/
def touches : ListCommand → Bool
  | .duplicate | .duplicateWith _ | .add _ _ | .insert _ _ _ | .extend _ | .extendRange _ _
  | .delete _ | .clear | .rotate | .drop | .pop _ | .set _ _ | .setEnd _ _ | .join _ | .sweep _ _ _
  | .state | .dump => true
  | _ => false

end ListCommand

end RingList.Session
