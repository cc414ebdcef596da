import RingList.Layout

/-!
# Errors of list operations

An operation that cannot be carried out for want of memory, or because a value could not be copied,
reports one of two causes.
-/

set_option autoImplicit false

namespace RingList

/-- Why an operation on a list failed. -/
inductive Error where
  /-- The allocator refused a block of this layout. -/
  | outOfMemory (layout : Layout)
  /-- The hook that copies values gave none. -/
  | notCopied
deriving DecidableEq, Repr

def Error.message : Error → String
  | .outOfMemory layout => "failed to allocate " ++ toString layout.size ++ " bytes for a list node"
  | .notCopied => "the duplicate method failed to copy a value"

/-- The error for want of a block. Only blocks of a valid layout are asked for. -/
def Error.forLayout (l : Layout) : Option Error := if l.valid then some (.outOfMemory l) else none

/-- Asks the general-purpose allocator for a block. There is no answer if the layout is not valid or
has no size. -/
def Layout.request (l : Layout) : Option (Except Error Unit) :=
  if l.size = 0 ∨ !l.valid then none
  else if l.available then some (.ok ())
  else some (.error (.outOfMemory l))

end RingList
