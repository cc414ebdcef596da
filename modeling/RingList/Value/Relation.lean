import RingList.Compare
import RingList.Text.Quoted
import RingList.Value

/-!
# Identity, equality, hash bytes and debug text of values

Identity asks whether two values are the same thing: the same object, the same place of the same base
text, or for plain values the same value. Equality looks at what the values hold.
-/

set_option autoImplicit false

namespace RingList

/-- Whether two values are the same thing. Slices are told apart by base text, start and stop. This takes
base texts to lie apart in memory: where two of them met, the empty slice at the end of the first would
be that at the start of the second. -/
def Value.same : Value → Value → Bool
  | .number m, .number n => m == n
  | .char c, .char d => c == d
  | .bool a, .bool b => a == b
  | .object i _, .object j _ => i == j
  | .slice b s e _, .slice b' s' e' _ => b == b' && s == s' && e == e'
  | _, _ => false

namespace ValueType

def equal (t : ValueType) : Value → Value → Bool
  | .number m, .number n => if t = .leq then decide (m ≤ n) else m == n
  | .char c, .char d => c == d
  | .bool a, .bool b => a == b
  | .unit, .unit => true
  | v, w =>
    match v.text?, w.text? with
    | some s, some s' => s == s'
    | _, _ => false

/-- The bytes that a value feeds a hasher: a number its bytes, lowest first; a character its code
point as four bytes; a text its UTF-8 bytes and one byte that occurs in no such text. -/
def bytes (t : ValueType) : Value → List UInt8
  | .number n =>
    match t.number? with
    | some (_, bits) => littleEndian (bits / 8) (n % 1 <<< bits).toNat
    | none => []
  | .char c => littleEndian 4 c.toNat
  | .bool b => [if b then 1 else 0]
  | .unit => []
  | .text s | .object _ s | .slice _ _ _ s => s.toUTF8.toList ++ [255]

/-- The debug text of a value; `pretty` spreads it over several lines. -/
def debug (t : ValueType) (pretty : Bool) : Value → String
  | .number n =>
    if t = .wide then
      if pretty then "Wide(\n" ++ Text.indent (toString n ++ ",\n") ++ ")"
      else "Wide(" ++ toString n ++ ")"
    else toString n
  | .char c => Text.quoted '\'' [c]
  | .bool b => if b then "true" else "false"
  | .unit => "()"
  | .text s | .slice _ _ _ s => Text.quoted '"' s.toList
  | .object id s => "#" ++ toString id ++ ":" ++ s

/-- The debug text of a sequence of values; `pretty` puts each on lines of its own. -/
def debugAll (t : ValueType) (pretty : Bool) (vs : List Value) : String :=
  let texts := vs.map (t.debug pretty)
  if pretty && !vs.isEmpty then
    "[\n" ++ String.join (texts.map fun s => Text.indent (s ++ ",\n")) ++ "]"
  else "[" ++ ", ".intercalate texts ++ "]"

end ValueType

end RingList
