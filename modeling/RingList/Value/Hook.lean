import RingList.Hooks
import RingList.Value.Literal
import RingList.Value.Relation

/-!
# Hooks on values

The hooks that a session can install, as rules that say what a call answers, and what comes with the
types of values themselves: copying without a hook, identity and equality. Some rules count their
calls; a counter belongs to the hook and not to the lists that hold it.
-/

set_option autoImplicit false

namespace RingList

/-- How a value is copied. -/
inductive CopyRule where
  | copy
  | fail
  /-- Fails on one value. -/
  | failOn (v : Literal)
  | panicOn (v : Literal)
  /-- Copies as often as a number says, and then fails. -/
  | limit (n : Int)
  | add (n : Int)
  | multiply (n : Int)
  | negate
  | upper
  | repeated (n : Int)
deriving DecidableEq, Repr

/-- What happens to a destroyed value. -/
inductive ReleaseRule where
  | log
  /-- Panics on one value, unless a panic is under way. -/
  | panicOn (v : Literal)
deriving DecidableEq, Repr

/-- When a value matches a key. -/
inductive MatchRule where
  | always
  | never
  | equal
  /-- Panics on one value, and is equality on the others. -/
  | panicOn (v : Literal)
  /-- Matches at the call of this number, counted from 0. -/
  | nth (n : Int)
  | above
  | below
  /-- The same remainder by a number. -/
  | modulo (n : Int)
  /-- The same text, but for the case of ASCII letters. -/
  | sameLetters
  | startsWith
  /-- Texts of the same number of bytes. -/
  | sameSize
deriving DecidableEq, Repr

/-- A rule as a command gives it, with the tag that its calls are reported with. -/
structure Tagged (ρ : Type) where
  tag : String
  rule : ρ
deriving DecidableEq, Repr

/-- The hooks of a session. A rule that counts uses the counter of its number. -/
inductive Hook where
  | copying (counter : Nat) (hook : Tagged CopyRule)
  | releasing (hook : Tagged ReleaseRule)
  | matching (counter : Nat) (hook : Tagged MatchRule)
  /-- Copying that comes with the type of values. -/
  | clone
  /-- Identity, as it comes with the type of values. -/
  | identity
  /-- Equality, as it comes with the type of values. -/
  | equality
deriving DecidableEq, Repr

/-- The state that hooks share. -/
structure HookState where
  counters : Array Int := #[]
  /-- The number of objects made so far. -/
  objects : Nat := 0
deriving DecidableEq, Repr

namespace HookState

/-- A new counter. Its number is the number of counters before. -/
def addCounter (s : HookState) (n : Int) : HookState := { s with counters := s.counters.push n }

/-- What a counter stands at, and the state with the counter one lower. -/
def count (s : HookState) (counter : Nat) : Int × HookState :=
  (s.counters.getD counter 0, { s with counters := s.counters.modify counter (· - 1) })

def addObject (s : HookState) (text : String) : Value × HookState :=
  (.object s.objects text, { s with objects := s.objects + 1 })

/-- Answers a copy of a value: an object is copied to a new one. -/
def copy (s : HookState) (v : Value) : Reply (Option Value) × HookState :=
  match v with
  | .object _ text =>
    let (w, s) := s.addObject text
    (.returns (some w), s)
  | v => (.returns (some v), s)

/-- Answers a copy of a value with its text changed. -/
def copyText (s : HookState) (f : String → String) (v : Value) : Reply (Option Value) × HookState :=
  match v with
  | .object _ text =>
    let (w, s) := s.addObject (f text)
    (.returns (some w), s)
  | .text text => (.returns (some (.text (f text))), s)
  | v => (.returns (some v), s)

end HookState

def CopyRule.start : CopyRule → Int
  | .limit n => n
  | _ => 0

def MatchRule.start : MatchRule → Int
  | .nth n => n
  | _ => 0

namespace ValueType

def hasCopyRule (t : ValueType) : CopyRule → Bool
  | .add _ | .multiply _ => t.isNumber
  | .negate => t = .bool
  | .upper | .repeated _ => t.hasText && t != .slice
  | _ => true

def hasMatchRule (t : ValueType) : MatchRule → Bool
  | .above | .below => t.isNumber || t.hasText
  | .modulo _ => t.isNumber
  | .sameLetters | .startsWith | .sameSize => t.hasText
  | _ => true

/-- A number computed from two numbers of the type, if they and the result fit it. -/
def computed (t : ValueType) (op : Int → Int → Int) (v : Value) (n : Int) : Option Value :=
  match v with
  | .number m => if t.fits n ∧ t.fits (op m n) then some (.number (op m n)) else none
  | _ => none

def applyCopy (t : ValueType) (counter : Nat) (rule : CopyRule) (s : HookState) (v : Value) :
    Reply (Option Value) × HookState :=
  match rule with
  | .copy => s.copy v
  | .fail => (.returns none, s)
  | .failOn lit => if t.plain v = lit then (.returns none, s) else s.copy v
  | .panicOn lit => if t.plain v = lit then (.panics, s) else s.copy v
  | .limit _ =>
    let (n, s) := s.count counter
    if n ≤ 0 then (.returns none, s) else s.copy v
  | .add n => (.returns (t.computed (· + ·) v n), s)
  | .multiply n => (.returns (t.computed (· * ·) v n), s)
  | .negate =>
    match v with
    | .bool b => (.returns (some (.bool !b)), s)
    | _ => (.returns none, s)
  | .upper => s.copyText (·.map Char.toUpper) v
  | .repeated n =>
    if n < 0 then (.returns none, s)
    else s.copyText (Text.repeated n.toNat) v

def applyRelease (t : ValueType) (rule : ReleaseRule) (v : Value) : Reply Unit :=
  match rule with
  | .log => .returns ()
  | .panicOn lit => if t.plain v = lit then .panics else .returns ()

/-- Whether a relation holds between the texts of two values. -/
def onTexts (rel : String → String → Bool) (v key : Value) : Bool :=
  match v.text?, key.text? with
  | some s, some s' => rel s s'
  | _, _ => false

/-- Whether one value comes before another: numbers by size, texts by their characters. -/
def before (v w : Value) : Bool :=
  match v, w with
  | .number m, .number n => decide (m < n)
  | _, _ => onTexts (fun s s' => decide (s < s')) v w

/-- Whether two numbers have the same remainder by `n`, if that is a positive number of the type. -/
def sameRemainder (t : ValueType) (n : Int) : Value → Value → Bool
  | .number m, .number k => decide (0 < n) && t.fits n && m % n == k % n
  | _, _ => false

def applyMatch (t : ValueType) (counter : Nat) (rule : MatchRule) (s : HookState) (v key : Value) :
    Reply Bool × HookState :=
  match rule with
  | .always => (.returns true, s)
  | .never => (.returns false, s)
  | .equal => (.returns (t.plain v = t.plain key), s)
  | .panicOn lit =>
    if t.plain v = lit then (.panics, s) else (.returns (t.plain v = t.plain key), s)
  | .nth _ =>
    let (n, s) := s.count counter
    (.returns (n == 0), s)
  | .above => (.returns (before key v), s)
  | .below => (.returns (before v key), s)
  | .modulo n => (.returns (t.sameRemainder n v key), s)
  | .sameLetters =>
    (.returns (onTexts (fun x y => x.map Char.toLower == y.map Char.toLower) v key), s)
  | .startsWith => (.returns (onTexts (fun x y => y.toList.isPrefixOf x.toList) v key), s)
  | .sameSize => (.returns (onTexts (fun x y => x.utf8ByteSize == y.utf8ByteSize) v key), s)

/-- What the hooks of a session do with values of a type. A hook that is called for something else
than it is made for does nothing. -/
def behaviour (t : ValueType) : Behaviour Hook HookState Value where
  dup h s v :=
    match h with
    | .copying counter hook => t.applyCopy counter hook.rule s v
    | .clone => (.returns (some v), s)
    | _ => (.returns none, s)
  free h s v :=
    match h with
    | .releasing hook => (t.applyRelease hook.rule v, s)
    | _ => (.returns (), s)
  freeUnwinding _ s _ := s
  matching h s v key :=
    match h with
    | .matching counter hook => t.applyMatch counter hook.rule s v key
    | .identity => (.returns (v.same key), s)
    | .equality => (.returns (t.equal v key), s)
    | _ => (.returns false, s)

end ValueType

end RingList
