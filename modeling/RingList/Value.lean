import RingList.Layout

/-!
# Values

The types of values that a session can put into its lists. All values of a list have one type, and the
type says how much room a value takes and what can be done with it.
-/

set_option autoImplicit false

namespace RingList

/-- How a value refers to an object. -/
inductive Reference where
  /-- Several values may refer to one object, and are compared by its text. -/
  | shared
  /-- No two values refer to one object. -/
  | exclusive
  /-- Several values may refer to one object, of which nothing but the place is known. -/
  | raw
deriving DecidableEq, Repr

/-- The types of values. -/
inductive ValueType where
  /-- Integers without sign, of a number of bits. -/
  | unsigned (bits : Nat)
  | signed (bits : Nat)
  | char
  | bool
  | unit
  | text
  /-- A byte that takes 64 bytes of room. -/
  | wide
  /-- An integer for which *equal* means *at most*. -/
  | leq
  /-- An integer whose end is reported. -/
  | tracked
  | object (reference : Reference)
  /-- A piece of one of several base texts. -/
  | slice
deriving DecidableEq, Repr

/-- A value of any of the types. -/
inductive Value where
  | number (n : Int)
  | char (c : Char)
  | bool (b : Bool)
  | unit
  | text (s : String)
  /-- A reference to the object of this number, which holds a text. -/
  | object (id : Nat) (text : String)
  /-- The bytes from `start` up to `stop` of a base text. -/
  | slice (base start stop : Nat) (text : String)
deriving DecidableEq, Repr

/-- The text that a value holds or refers to. -/
def Value.text? : Value → Option String
  | .text s | .object _ s | .slice _ _ _ s => some s
  | _ => none

namespace ValueType

def layout : ValueType → Layout
  | .unsigned bits | .signed bits => ⟨bits / 8, bits / 8⟩
  | .char => ⟨4, 4⟩
  | .bool => ⟨1, 1⟩
  | .unit => ⟨0, 1⟩
  | .text => ⟨24, 8⟩
  | .wide => ⟨64, 64⟩
  | .leq | .tracked | .object _ => ⟨8, 8⟩
  | .slice => ⟨16, 8⟩

/-- For the types whose values are numbers, whether they have a sign and how many bits. -/
def number? : ValueType → Option (Bool × Nat)
  | .unsigned bits => some (false, bits)
  | .signed bits => some (true, bits)
  | .wide => some (false, 8)
  | .leq | .tracked => some (true, 64)
  | _ => none

def isNumber (t : ValueType) : Bool := t.number?.isSome

/-- Whether a number is a value of the type. -/
def fits (t : ValueType) (n : Int) : Bool :=
  match t.number? with
  | some (false, bits) => decide (0 ≤ n ∧ n < 1 <<< bits)
  | some (true, bits) => decide (-(1 <<< (bits - 1)) ≤ n ∧ n < 1 <<< (bits - 1))
  | none => false

/-- Whether the values hold or refer to a text. -/
def hasText : ValueType → Bool
  | .text | .object _ | .slice => true
  | _ => false

/-- Whether the values can be copied without a hook. -/
def hasClone : ValueType → Bool
  | .leq | .object .exclusive => false
  | _ => true

def hasIdentity : ValueType → Bool
  | .unit | .text | .wide | .leq | .tracked => false
  | _ => true

def hasEquality : ValueType → Bool
  | .tracked | .object .raw => false
  | _ => true

def hasHash : ValueType → Bool
  | .leq | .tracked | .object .raw => false
  | _ => true

/-- Whether the values can be shown as debug text. -/
def hasDebug : ValueType → Bool
  | .leq | .tracked | .object .raw => false
  | _ => true

/-- Whether the end of a value is reported. -/
def reportsEnd : ValueType → Bool
  | .tracked => true
  | _ => false

/-- Whether several values may refer to the same object. -/
def shares : ValueType → Bool
  | .object .shared | .object .raw => true
  | _ => false

end ValueType

end RingList
