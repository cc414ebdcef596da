import RingList.Value

/-!
# Literals

Values as they are written in the commands of a session. Numbers of at most 32 bits are shown as
numbers and wider ones as decimal text; both forms are understood.
-/

set_option autoImplicit false

namespace RingList

/-- A value as it is written. -/
inductive Literal where
  | null
  | bool (b : Bool)
  | integer (n : Int)
  | text (s : String)
  /-- A new object with this text. -/
  | newObject (text : String)
  /-- The object of this number once more. -/
  | sameObject (id : Nat)
  /-- The bytes from `start` up to `stop` of a base text. -/
  | slice (base start stop : Nat)
  /-- Anything else. -/
  | other
deriving DecidableEq, Repr

namespace Literal

/-- The number that decimal digits stand for, after `acc`. -/
def readDigits (acc : Nat) : List Char → Option Nat
  | [] => some acc
  | c :: cs => if c.isDigit then readDigits (acc * 10 + (c.toNat - 48)) cs else none

/-- The number that one or more decimal digits stand for. -/
def readNat : List Char → Option Nat
  | [] => none
  | cs => readDigits 0 cs

/-- The number that decimal digits, with or without a sign, stand for. A minus sign is understood only
where numbers are `signed`, even in front of a zero. -/
def readInt (signed : Bool) (s : String) : Option Int :=
  match s.toList with
  | '-' :: cs => if signed then (readNat cs).map fun n => -(n : Int) else none
  | '+' :: cs => (readNat cs).map fun n => (n : Int)
  | cs => (readNat cs).map fun n => (n : Int)

/-- The number that a literal stands for where numbers are `signed` or not. -/
def integer? (signed : Bool) : Literal → Option Int
  | .integer n => some n
  | .text s => readInt signed s
  | _ => none

end Literal

namespace ValueType

/-- The bytes from `start` up to `stop` of an ASCII text. -/
def cut (text : String) (start stop : Nat) : Option String :=
  let cs := text.toList
  if start ≤ stop ∧ stop ≤ cs.length then
    some (String.ofList ((cs.take stop).drop start))
  else none

/-- The value that a literal stands for. New objects are none: they have to be made first.
`objects` are the objects made so far, by number. -/
def read (t : ValueType) (bases : Array String) (objects : List (Nat × String)) (lit : Literal) :
    Option Value :=
  match t.number? with
  | some (hasSign, _) => do
    let n ← lit.integer? hasSign
    if t.fits n then some (.number n) else none
  | none =>
    match t, lit with
    | .char, .text s =>
      match s.toList with
      | [c] => some (.char c)
      | _ => none
    | .bool, .bool b => some (.bool b)
    | .unit, .null => some .unit
    | .text, .text s => some (.text s)
    | .object _, .sameObject id =>
      if t.shares then (objects.lookup id).map (.object id) else none
    | .slice, .slice base start stop => do
      let text ← bases[base]?
      (cut text start stop).map (.slice base start stop)
    | _, _ => none

/-- The plain form of a value, with which literals are compared. -/
def plain (t : ValueType) : Value → Literal
  | .number n =>
    match t.number? with
    | some (_, bits) => if bits ≤ 32 then .integer n else .text (toString n)
    | none => .integer n
  | .char c => .text (String.singleton c)
  | .bool b => .bool b
  | .unit => .null
  | .text s | .object _ s | .slice _ _ _ s => .text s

end ValueType

end RingList
