import Verbatim.Item.Basic
import Verbatim.Cursor
import Verbatim.DataReader.Basic

/-!
# Lines of a document

A document is a sequence of lines. A *header* line opens a table or appends one to an array of tables; an *entry* line
gives a key path and a value. Each keeps its text as spans, so a document is its lines and what follows the last one.
-/

namespace Verbatim

/-- A line that opens a table. -/
structure Header where
  path : List Key
  leaf : Key
  /-- Whether the table belongs to an array of tables. -/
  isArray : Bool
  /-- The text before the brackets and behind them. -/
  decor : Decor
  newline : String
  number : Nat
  span : Span

/-- A line with a key path and a value. -/
structure EntryLine where
  path : List Key
  leaf : Key
  value : Item
  newline : String
  number : Nat
  offset : Nat

/-- One line of a document. -/
inductive Line where
  | header (h : Header)
  | entry (e : EntryLine)

def Header.keys (h : Header) : List Key := h.path ++ [h.leaf]

inductive SyntaxCause where
  | expected (what : String) (found : Option Char)
  /-- Something behind a complete line. -/
  | expectedNewline (behind : String) (found : Char)
  /-- A header path through something that is no table. -/
  | alreadyDefined (name kind : String)
  /-- A double-bracketed header for something else. -/
  | notArrayOfTables (name : String)
  /-- A second header for a table. -/
  | definedTwice (path : List String)
  /-- A dotted key through something else. -/
  | cannotExtend (name kind : String)
  | duplicateKey (name : String)
  | multilineKey
  /-- A quoted key that spells no name. -/
  | invalidQuotedKey (text : String)
  | expectedKey (found : Option Char)
  | expectedValue
  | unexpectedCharacter (c : Char)
  | invalidValue (text : String)
  | tooManyQuotes
  | unterminatedMultiline
  | unterminatedString
  | nestedBeyond (limit : Nat)
  | expectedArrayEnd
  | expectedInlineEnd
  | tooDeep
  | tooManyDigits (count : Nat)
  /-- A date followed by a space and digits of another script. -/
  | foreignDigits
  deriving Repr, DecidableEq

namespace SyntaxCause

def foundShown : Option Char → String
  | some c => Text.quoted c.toString
  | none => "end of file"

def message : SyntaxCause → String
  | .expected what found => "Expected " ++ what ++ ", found " ++ foundShown found
  | .expectedNewline behind found =>
    "Expected a newline after " ++ behind ++ ", found " ++ Text.quoted found.toString
  | .alreadyDefined name kind => "Key " ++ Text.quoted name ++ " is already defined as a " ++ kind
  | .notArrayOfTables name => "Cannot redefine " ++ Text.quoted name ++ " as an array of tables"
  | .definedTwice path => "Table " ++ Text.quoted (".".intercalate path) ++ " is defined more than once"
  | .cannotExtend name kind =>
    "Cannot extend " ++ Text.quoted name ++ " with a dotted key: it is already defined as a " ++ kind
  | .duplicateKey name => "Duplicate key " ++ Text.quoted name
  | .multilineKey => "Multi-line strings cannot be used as keys"
  | .invalidQuotedKey text => "Invalid quoted key " ++ text
  | .expectedKey found => "Expected a key, found " ++ foundShown found
  | .expectedValue => "Expected a value"
  | .unexpectedCharacter c => "Unexpected character " ++ Text.quoted c.toString ++ " in value"
  | .invalidValue text => "Invalid value " ++ Text.quoted text
  | .tooManyQuotes => "Too many quotes closing a multi-line string"
  | .unterminatedMultiline => "Unterminated multi-line string"
  | .unterminatedString => "Unterminated string"
  | .nestedBeyond limit => "Values are nested more than " ++ toString limit ++ " levels deep"
  | .expectedArrayEnd => "Expected ',' or ']' in array"
  | .expectedInlineEnd => "Expected ',' or '\x7d' in inline table"
  | .tooDeep => "Values are nested too deeply to parse"
  | .tooManyDigits count => (DataReader.ReadCause.tooManyDigits count).message
  | .foreignDigits => ""

end SyntaxCause

structure SyntaxFault where
  cause : SyntaxCause
  offset : Nat
  deriving Repr, DecidableEq

/-- A cursor with the number that the last line or inline entry was given. -/
structure Numbered where
  cursor : Cursor
  number : Nat

abbrev Scanned (α : Type) := Except SyntaxFault (α × Cursor)

def SyntaxCause.at {α : Type} (cause : SyntaxCause) (offset : Nat) : Except SyntaxFault α :=
  .error ⟨cause, offset⟩

end Verbatim
