import Verbatim.Failure

/-!
# Reports

The errors that users of the library are meant to handle come in kinds, each a special case of a more general one. A report is
an error of such a kind with its wording and its particulars. The kind decides how a program that gives up on it ends.
-/

namespace Verbatim

inductive ErrorKind where
  | general
  | validation
  | invalidOptions
  | file
  | fileNotFound
  | parsing
  | rendering
  | consumed
  | readOnly
  /-- A tree that should not exist; not an error that users are meant to handle. -/
  | invariant
  deriving Repr, DecidableEq

namespace ErrorKind

def name : ErrorKind → String
  | .general => "TomlSpanError"
  | .validation => "ValidationError"
  | .invalidOptions => "InvalidOptionsError"
  | .file => "FileError"
  | .fileNotFound => "InputFileNotFoundError"
  | .parsing => "ParsingError"
  | .rendering => "RenderingError"
  | .consumed => "DocumentConsumedError"
  | .readOnly => "ReadOnlyItemError"
  | .invariant => "InvariantViolation"

def all : List ErrorKind :=
  [.general, .validation, .invalidOptions, .file, .fileNotFound, .parsing, .rendering, .consumed, .readOnly, .invariant]

def ofName? (s : String) : Option ErrorKind := all.find? fun k => k.name == s

/-- A kind and the more general ones, in order. -/
def lineage : ErrorKind → List ErrorKind
  | .general => [.general]
  | .validation => [.validation, .general]
  | .invalidOptions => [.invalidOptions, .validation, .general]
  | .file => [.file, .general]
  | .fileNotFound => [.fileNotFound, .file, .general]
  | .parsing => [.parsing, .general]
  | .rendering => [.rendering, .general]
  | .consumed => [.consumed, .general]
  | .readOnly => [.readOnly, .general]
  | .invariant => [.invariant]

/-- The exit code of a program that gives up on an error. -/
def exitCode (k : ErrorKind) : Nat :=
  if k.lineage.contains .validation then 3
  else if k.lineage.contains .file then 4
  else if k.lineage.contains .parsing then 6
  else if k.lineage.contains .rendering then 7
  else 1

end ErrorKind

/-- What a report has besides its wording. -/
inductive Particulars where
  | none
  | parameter (name : Option String) (value : Plain)
  | options (converter expected received : String)
  | file (path : Option String)
  | place (p : FaultPlace)

/-- An error with its wording and its particulars. -/
structure Report where
  kind : ErrorKind
  message : String
  particulars : Particulars := .none
  /-- The wording of the error behind it. -/
  cause : Option String := Option.none

namespace Report

def text (r : Report) : String :=
  match r.particulars with
  | .place p => p.textFor r.message
  | _ => r.message

/-- The report on options of the wrong group, with a wording of its own or the usual one. -/
def wrongOptions (converter expected received : String) (message : Option String) : Report where
  kind := .invalidOptions
  message := message.getD (wrongOptionsMessage converter expected received)
  particulars := .options converter expected received

def fileNotFound (path : String) : Report where
  kind := .fileNotFound
  message := (ParseFailure.fileNotFound path).message
  particulars := .file (some path)

def ofParsing (e : ParsingError) : Report where
  kind := .parsing
  message := e.message
  particulars := .place e.place

end Report

def ParseFailure.report? : ParseFailure → Option Report
  | .refused e => some (.ofParsing e)
  | .fileNotFound path => some (.fileNotFound path)
  | .unreadable path reason =>
    some { kind := .file, message := (ParseFailure.unreadable path reason).message, particulars := .file (some path) }
  | _ => none

/-- The report of a failure that users are meant to handle. -/
def Failure.report? (f : Failure) : Option Report :=
  match f with
  | .parse e => e.report?
  | .wrongOptions expected received => some (.wrongOptions "toml" expected.name received none)
  | .render (.literal _) => none
  | .render e => some { kind := .rendering, message := e.message }
  | .edit (.readOnly typeName) => some { kind := .readOnly, message := (EditError.readOnly typeName).message }
  | .consumed => some { kind := .consumed, message := f.message }
  | _ => none

end Verbatim
