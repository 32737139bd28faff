import Verbatim.Cursor
import Verbatim.Text.LineBreak

/-!
# Faults of the data reader

The data reader takes a text for its data alone. What it refuses it refuses at a place: a line and a column, or the end of
the document.
-/

namespace Verbatim.DataReader

inductive ReadCause where
  | invalidStatement
  | expectedLineEnd
  | declaredTwice (path : List String)
  /-- A table or value where another value stands. -/
  | overwrite
  | expectedTableClose
  | expectedArrayClose
  /-- A change below an inline value. -/
  | immutable (path : List String)
  /-- A dotted key through a declared table. -/
  | redefined (path : List String)
  | expectedEquals
  | invalidKeyStart
  | expected (delimiter : String)
  | invalidCharacter (c : Char)
  | unclosedArray
  | duplicateInlineKey (name : String)
  | unclosedInlineTable
  | strayBackslash
  | invalidHex
  | notScalar
  | unterminatedString
  | illegalCharacter (c : Char)
  | invalidDate
  | invalidValue
  | tooDeep
  | tooManyDigits (count : Nat)
  deriving Repr, DecidableEq

def maxIntegerDigits : Nat := 4300

def ReadCause.message : ReadCause → String
  | .invalidStatement => "Invalid statement"
  | .expectedLineEnd => "Expected newline or end of document after a statement"
  | .declaredTwice path => "Cannot declare " ++ Text.quotedTuple path ++ " twice"
  | .overwrite => "Cannot overwrite a value"
  | .expectedTableClose => "Expected ']' at the end of a table declaration"
  | .expectedArrayClose => "Expected ']]' at the end of an array declaration"
  | .immutable path => "Cannot mutate immutable namespace " ++ Text.quotedTuple path
  | .redefined path => "Cannot redefine namespace " ++ Text.quotedTuple path
  | .expectedEquals => "Expected '=' after a key in a key/value pair"
  | .invalidKeyStart => "Invalid initial character for a key part"
  | .expected delimiter => "Expected " ++ Text.quoted delimiter
  | .invalidCharacter c => "Found invalid character " ++ Text.quoted c.toString
  | .unclosedArray => "Unclosed array"
  | .duplicateInlineKey name => "Duplicate inline table key " ++ Text.quoted name
  | .unclosedInlineTable => "Unclosed inline table"
  | .strayBackslash => "Unescaped '\\' in a string"
  | .invalidHex => "Invalid hex value"
  | .notScalar => "Escaped character is not a Unicode scalar value"
  | .unterminatedString => "Unterminated string"
  | .illegalCharacter c => "Illegal character " ++ Text.quoted c.toString
  | .invalidDate => "Invalid date or datetime"
  | .invalidValue => "Invalid value"
  | .tooDeep => "values are nested too deeply"
  | .tooManyDigits count =>
    "Exceeds the limit (" ++ toString maxIntegerDigits ++ " digits) for integer string conversion: value has " ++
      toString count ++ " digits; use sys.set_int_max_str_digits() to increase the limit"

/-- A cause with the position at which it was met. -/
structure Fault where
  cause : ReadCause
  pos : Nat
  deriving Repr, DecidableEq

/-- The result of a reading step: a value and the cursor behind it. -/
abbrev Step (α : Type) := Except Fault (α × Cursor)

def fail {α : Type} (cause : ReadCause) (c : Cursor) : Except Fault α := .error ⟨cause, c.pos⟩

/-- A place in a text, as it is reported. -/
inductive Place where
  /-- A line and a column, both from 1. -/
  | at (line column : Nat)
  | endOfDocument
  deriving Repr, DecidableEq

/-- The line and column of a position, lines ending at line feeds. -/
def lineColumn (source : List Char) (pos : Nat) : Nat × Nat :=
  let behind := source.take pos
  (behind.count '\n' + 1, (behind.reverse.takeWhile (· != '\n')).length + 1)

def Place.ofPos (source : List Char) (pos : Nat) : Place :=
  if source.length ≤ pos then .endOfDocument
  else .at (lineColumn source pos).1 (lineColumn source pos).2

def Place.text : Place → String
  | .at line column => "(at line " ++ toString line ++ ", column " ++ toString column ++ ")"
  | .endOfDocument => "(at end of document)"

inductive ReadError where
  | refused (cause : ReadCause) (place : Place)
  | tooDeep
  | tooManyDigits (count : Nat)
  deriving Repr, DecidableEq

def ReadError.ofFault (source : List Char) (f : Fault) : ReadError :=
  match f.cause with
  | .tooDeep => .tooDeep
  | .tooManyDigits count => .tooManyDigits count
  | cause => .refused cause (.ofPos source f.pos)

def ReadError.message : ReadError → String
  | .refused cause place => cause.message ++ " " ++ place.text
  | .tooDeep => ReadCause.tooDeep.message
  | .tooManyDigits count => (ReadCause.tooManyDigits count).message

/-! ## Character classes -/

/-- Blanks within a line. -/
def isBlank (c : Char) : Bool := c == ' ' || c == '\t'

/-- Blanks and line feeds. -/
def isBlankOrNewline (c : Char) : Bool := isBlank c || c == '\n'

def isControl (c : Char) : Bool := c.toNat < 32 || c.toNat == 127

/-- Control characters that a line may not hold. -/
def isIllegalInLine (c : Char) : Bool := isControl c && c != '\t'

/-- Control characters that a text of several lines may not hold. -/
def isIllegalInLines (c : Char) : Bool := isControl c && c != '\t' && c != '\n'

/-! ## Searching -/

/-- The text before the first occurrence of a delimiter. -/
def before? (delimiter : List Char) : List Char → Option (List Char)
  | [] => if delimiter.isEmpty then some [] else none
  | c :: rest =>
    if delimiter.isPrefixOf (c :: rest) then some [] else (before? delimiter rest).map (c :: ·)

/-- The position of the first character of a class in a text that follows a cursor. -/
def firstBad (bad : Char → Bool) (text : List Char) (c : Cursor) : Except Fault Unit :=
  match text.dropWhile (fun x => !bad x) with
  | [] => .ok ()
  | x :: _ => fail (.invalidCharacter x) (c.drop (text.takeWhile fun x => !bad x).length)

/-- Skips a comment, which may not hold control characters. -/
def skipComment (c : Cursor) : Except Fault Cursor :=
  match c.rest with
  | '#' :: _ =>
    let inside := c.next
    let text := inside.rest.takeWhile (· != '\n')
    match firstBad isIllegalInLine text inside with
    | .error f => .error f
    | .ok () => .ok (inside.drop text.length)
  | _ => .ok c

/-- Skips blanks, line feeds and comments. -/
def skipBlanks (c : Cursor) : Except Fault Cursor :=
  match skipComment (c.skipWhile isBlankOrNewline) with
  | .error f => .error f
  | .ok c' => if c'.rest.length < c.rest.length then skipBlanks c' else .ok c'
termination_by c.rest.length

end Verbatim.DataReader
