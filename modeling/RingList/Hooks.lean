/-!
# Hooks

A list never looks inside its values. Copying a value, taking a value that the list destroys and
matching a value with a key are left to three optional hooks. A list holds only *names* of hooks, of
an arbitrary type `η`; what a named hook does is given by a `Behaviour`, whose state `σ` belongs to
the hooks and not to the lists. So lists that hold the same name share the hook with its state.
-/

set_option autoImplicit false

namespace RingList

/-- The three uses of hooks. -/
inductive HookKind where
  | dup
  | free
  | matching
deriving DecidableEq, Repr

/-- The hooks installed on a list, each a name or none. -/
structure Hooks (η : Type) where
  /-- Copies a value, or fails. -/
  dup : Option η := none
  /-- Takes a value that the list destroys. -/
  free : Option η := none
  /-- Tells whether a value matches a key. -/
  matching : Option η := none
deriving DecidableEq, Repr

/-- How the call of a hook ends. -/
inductive Reply (β : Type) where
  | returns (b : β)
  | panics
deriving DecidableEq, Repr

/-- What the hooks named by `η` do with values of type `α`. Each call may use and change the
state `σ` that all hooks share. -/
structure Behaviour (η σ α : Type) where
  /-- Copies a value; `none` is the failure to copy it. -/
  dup : η → σ → α → Reply (Option α) × σ
  free : η → σ → α → Reply Unit × σ
  /-- Takes a destroyed value while a panic is under way: a second panic cannot be raised then. -/
  freeUnwinding : η → σ → α → σ
  /-- Tells whether a value (first) matches a key (second). -/
  matching : η → σ → α → α → Reply Bool × σ

end RingList
