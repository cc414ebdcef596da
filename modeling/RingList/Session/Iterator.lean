import RingList.Session

/-!
# Calls of iterators

A borrowed iterator leaves the list alone. An owning one takes the values out of its list, which is the
list for as long as the iterator is there.
-/

set_option autoImplicit false

namespace RingList.Session

/-- A debug text, if values of the type have one. -/
def debugged (text : ValueType → Step String) : Step (Option String) := do
  let t := (← get).type
  if t.hasDebug then some <$> text t else return none

/-- An iterator from which everything was taken. -/
def exhausted (it : Iter) : Iter := { it with remaining := 0 }

/-- A call of a borrowed iterator, and the iterator afterwards. -/
def callBorrowed (it : Iter) : Call → Step (CallResult × Iter)
  | .take e => do
    let (v, it) ← read (it.take e)
    return (.value v, it)
  | .length => return (.length it.sizeHint.1, it)
  | .size => return (.size it.sizeHint.1, it)
  | .last => return (.value (← read it.clone.last), it)
  | .debug => do return (.debug (← debugged fun t => read (it.debugText (t.debug false))), it)
  | .peekRest e => return (.values (← read (it.clone.rest e)), it)
  | .takeRest e => return (.values (← read (it.rest e)), exhausted it)
  | .unknown => return (.unknown, it)

def callsBorrowed (it : Iter) : List Call → Step (List CallResult)
  | [] => return []
  | call :: calls => do
    let (r, it) ← callBorrowed it call
    return r :: (← callsBorrowed it calls)

def takeOwned (it : Addr) (e : End) : Step (Option Value) := do
  match ← perform (.take it e) with
  | .value v => return v
  | _ => return none

/-- Takes `n` values from an owning iterator, or as many as are left. -/
def takeAllOwned (it : Addr) (e : End) : Nat → Step (List Value)
  | 0 => return []
  | n + 1 => do
    match ← takeOwned it e with
    | some v => return v :: (← takeAllOwned it e n)
    | none => return []

def callOwned (it : Addr) : Call → Step CallResult
  | .take e => return .value (← takeOwned it e)
  | .length => return .length (← read (RingList.length it))
  | .size => return .size (← read (RingList.length it))
  | .debug => do
    let shown ← debugged fun t => do
      return "IntoIter(" ++ t.debugAll false (← read (RingList.values it)) ++ ")"
    return .debug shown
  | .takeRest e => do return .taken (← takeAllOwned it e (← read (RingList.length it)))
  | .last | .peekRest _ | .unknown => return .unknown

end RingList.Session
