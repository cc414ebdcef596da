import RingList.Text.Combining
import RingList.Text.Printable

/-!
# Quoted text

Text between quotes, with every character that cannot be seen for what it is written as an escape:
a letter after a backslash for the common ones, the code point in hexadecimal for the others.
-/

set_option autoImplicit false

namespace RingList.Text

/-- A digit below 16, in lower case. -/
def hexDigit (n : Nat) : Char := if n < 10 then Char.ofNat (48 + n) else Char.ofNat (87 + n)

def hexDigits : Nat → Nat → List Char
  | 0, _ => []
  | n + 1, k => hexDigits n (k / 16) ++ [hexDigit (k % 16)]

/-- The hexadecimal digits of a code point, without leading zeros. -/
def hexCode (c : Char) : List Char := hexDigits (c.toNat.log2 / 4 + 1) c.toNat

def hexByte (b : UInt8) : List Char := hexDigits 2 b.toNat

def hex (bytes : List UInt8) : String := String.ofList (bytes.flatMap hexByte)

/-- The written form of a character between quotes of the kind `quote`. -/
def escape (quote : Char) (c : Char) : List Char :=
  if c = '\x00' then ['\\', '0']
  else if c = '\t' then ['\\', 't']
  else if c = '\r' then ['\\', 'r']
  else if c = '\n' then ['\\', 'n']
  else if c = '\\' || c = quote then ['\\', c]
  else if isCombining c || !isPrintable c then ['\\', 'u', '\x7b'] ++ hexCode c ++ ['\x7d']
  else [c]

def quoted (quote : Char) (cs : List Char) : String :=
  String.ofList ([quote] ++ cs.flatMap (escape quote) ++ [quote])

/-- A text a number of times in a row. However often it is repeated, no text stays no text. -/
def repeated (n : Nat) (text : String) : String :=
  if text = "" then "" else String.join (List.replicate n text)

/-- Puts four spaces in front of every line. -/
def indentFrom (atStart : Bool) : List Char → List Char
  | [] => []
  | c :: cs => (if atStart then [' ', ' ', ' ', ' '] else []) ++ c :: indentFrom (c = '\n') cs

def indent (s : String) : String := String.ofList (indentFrom true s.toList)

end RingList.Text
