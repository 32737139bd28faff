import Verbatim.Document
import Verbatim.Item.Assemble
import Verbatim.DataReader.Document
import Verbatim.Text.Encoding
import Verbatim.Text.LineBreak
import Verbatim.Text.PlaceMark

/-!
# Parsing

A source is loaded, checked by the strict reader unless that is switched off, and read into a tree. The result is a
snapshot; a refused text gives an error with the place of the fault and the line it stands in.
-/

namespace Verbatim

inductive ParsingCause where
  | reader
  | nesting
  | decoding
  deriving Repr, DecidableEq

structure FaultPlace where
  line : Option Int := none
  column : Option Int := none
  context : Option String := none
  deriving Repr, DecidableEq

/-- A message with the place of the fault and, below, the line with a mark under the column. -/
def FaultPlace.textFor (p : FaultPlace) (message : String) : String :=
  match p.line with
  | none => message
  | some line =>
    let head := message ++ " (at line " ++ toString line ++ ", column " ++ Item.numberShown p.column ++ ")"
    match p.context, p.column with
    | some context, some column =>
      head ++ "\n  | " ++ context ++ "\n  | " ++ String.ofList (List.replicate (column - 1).toNat ' ') ++ "^"
    | _, _ => head

structure ParsingError where
  message : String
  place : FaultPlace := {}
  cause : Option ParsingCause := none
  deriving Repr, DecidableEq

def ParsingError.text (e : ParsingError) : String := e.place.textFor e.message

inductive ParseFailure where
  | refused (e : ParsingError)
  | tooManyDigits (count : Nat)
  | foreignDigits
  | unknownEncoding (name : String)
  | fileNotFound (path : String)
  | unreadable (path reason : String)
  | unsupported (kind : String)
  deriving Repr, DecidableEq

def ParseFailure.message : ParseFailure → String
  | .refused e => e.text
  | .tooManyDigits count => (SyntaxCause.tooManyDigits count).message
  | .foreignDigits => SyntaxCause.foreignDigits.message
  | .unknownEncoding name => "unknown encoding: " ++ name
  | .fileNotFound path => "File not found: " ++ path
  | .unreadable path reason => "Could not read " ++ path ++ ": " ++ reason
  | .unsupported kind => "Unsupported input type: " ++ kind

/-! ## Loading -/

/-- Where a text comes from. -/
inductive Source where
  | text (s : String)
  | stream (s : String)
  /-- Bytes, from wherever they come. -/
  | bytes (bs : List UInt8)
  | missingFile (path : String)
  | unreadableFile (path reason : String)
  | other (kind : String)
  deriving Repr, DecidableEq

/-- The text that bytes spell. No bytes spell the empty text whatever the encoding is called. -/
def decodeBytes (encoding : String) (bs : List UInt8) : Except ParseFailure (List Char) :=
  if bs.isEmpty then .ok []
  else
    match Text.Encoding.ofName? encoding with
    | none => .error (.unknownEncoding encoding)
    | some e =>
      match e.decode bs with
      | .ok text => .ok text
      | .error reason =>
        .error (.refused
          { message := "Input is not valid " ++ encoding ++ ": " ++ reason.message, cause := some .decoding })

/-- The text of a source, and whose text it is. -/
def Source.load (encoding : String) : Source → Except ParseFailure (List Char × SourceMode)
  | .text s => .ok (s.toList, .borrowed)
  | .stream s => .ok (s.toList, .owned)
  | .bytes bs =>
    match decodeBytes encoding bs with
    | .ok cs => .ok (cs, .owned)
    | .error e => .error e
  | .missingFile path => .error (.fileNotFound path)
  | .unreadableFile path reason => .error (.unreadable path reason)
  | .other kind => .error (.unsupported kind)

/-! ## Checking -/

def displayedLine? (source : List Char) (line : Nat) : Option String :=
  if line = 0 then none else ((Text.splitLines source)[line - 1]?).map String.ofList

/-- The report of what the strict reader refused. The place is taken from the wording. -/
def refusal (source : List Char) (e : DataReader.ReadError) : ParsingError :=
  let wording := e.message.toList
  let message := "Invalid TOML: " ++ String.ofList (Text.trim (Text.withoutMarks wording))
  match Text.firstMark? wording with
  | none => { message, cause := some .reader }
  | some (line, column) =>
    { message, place := ⟨some line, some column, displayedLine? source line⟩, cause := some .reader }

def validate (source : List Char) : Except ParseFailure Unit :=
  match DataReader.readDocument source with
  | .ok _ => .ok ()
  | .error .tooDeep =>
    .error (.refused
      { message := "Invalid TOML: " ++ DataReader.ReadError.tooDeep.message, cause := some .nesting })
  | .error (.tooManyDigits count) => .error (.tooManyDigits count)
  | .error e => .error (.refused (refusal source e))

/-! ## Reading -/

/-- The line of a number, lines ending at line feeds, without the carriage returns at its end. -/
def sourceLine? (source : List Char) (line : Nat) : Option String :=
  ((Text.splitAtNewline source)[line - 1]?).map fun l => String.ofList (Text.dropTrailingReturns l)

/-- The report of a fault in the lines of a text. -/
def SyntaxFault.failure (source : List Char) (f : SyntaxFault) : ParseFailure :=
  match f.cause with
  | .tooDeep => .refused { message := SyntaxCause.tooDeep.message, cause := some .nesting }
  | .tooManyDigits count => .tooManyDigits count
  | .foreignDigits => .foreignDigits
  | cause =>
    let (line, column) := DataReader.lineColumn source f.offset
    .refused { message := cause.message, place := ⟨some line, some column, sourceLine? source line⟩ }

def parseTree (options : ReadOptions) (source : List Char) : Except ParseFailure (Item × SpanText) :=
  match readTree options.maxNesting source with
  | .ok tree => .ok tree
  | .error f => .error (f.failure source)

def parseText (options : ReadOptions) (mode : SourceMode) (source : List Char) : Except ParseFailure Snapshot :=
  match if options.validate then validate source else .ok () with
  | .error e => .error e
  | .ok () =>
    match parseTree options source with
    | .error e => .error e
    | .ok (root, trailing) => .ok ⟨root.freeze true, trailing, String.ofList source, mode⟩

def parse (options : ReadOptions) (source : Source) : Except ParseFailure Snapshot :=
  match source.load options.encoding with
  | .error e => .error e
  | .ok (text, mode) => parseText options mode text

def parseDocument (options : ReadOptions) (source : Source) : Except ParseFailure Document :=
  (parse options source).map Snapshot.toDocument

end Verbatim
