import Verbatim.Text.Printable

/-!
# Displayed text

Messages show a text between quotation marks: single ones, unless the text holds a single mark and no
double one. The mark in use and the backslash are escaped, and so is every character that is not printable.
-/

namespace Verbatim.Text

def hexDigit (n : Nat) : Char :=
  if n < 10 then Char.ofNat (48 + n) else Char.ofNat (87 + n)

/-- The last `width` hexadecimal digits of a number. -/
def hexDigits : Nat → Nat → List Char
  | 0, _ => []
  | width + 1, n => hexDigits width (n / 16) ++ [hexDigit (n % 16)]

/-- A code point as an escape of the least fitting width: two, four or eight digits. -/
def escapedCode (n : Nat) : List Char :=
  if n < 0x100 then ['\\', 'x'] ++ hexDigits 2 n
  else if n < 0x10000 then ['\\', 'u'] ++ hexDigits 4 n
  else ['\\', 'U'] ++ hexDigits 8 n

/-- One character of a text displayed between the given marks. -/
def quotedChar (mark c : Char) : List Char :=
  if c = mark ∨ c = '\\' then ['\\', c]
  else if c = '\t' then ['\\', 't']
  else if c = '\n' then ['\\', 'n']
  else if c = '\r' then ['\\', 'r']
  else if isPrintable c then [c]
  else escapedCode c.toNat

def quoteMark (text : List Char) : Char :=
  if text.contains '\'' && !text.contains '"' then '"' else '\''

/-- The displayed form of a sequence of characters. -/
def quotedChars (text : List Char) : List Char :=
  let mark := quoteMark text
  mark :: text.flatMap (quotedChar mark) ++ [mark]

def quoted (s : String) : String := String.ofList (quotedChars s.toList)

/-- The displayed form of a sequence in round brackets, a single member being followed by a comma. -/
def tupleOf (shown : List String) : String :=
  match shown with
  | [x] => "(" ++ x ++ ",)"
  | xs => "(" ++ ", ".intercalate xs ++ ")"

def listOf (shown : List String) : String := "[" ++ ", ".intercalate shown ++ "]"

def quotedTuple (names : List String) : String := tupleOf (names.map quoted)

def quotedList (names : List String) : String := listOf (names.map quoted)

end Verbatim.Text
