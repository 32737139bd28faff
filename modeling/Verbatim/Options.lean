import Verbatim.Text.Blank
import Verbatim.Text.Quoted
import Verbatim.Data

/-!
# Options

Reading and writing are configured by named options with defaults. The options come in groups: a base group and a group
that extends it, for reading and for writing. A group of options is checked when it is made and never changes afterwards.
-/

namespace Verbatim

inductive OptionValue where
  | flag (b : Bool)
  | number (n : Int)
  | text (s : String)
  deriving Repr, DecidableEq, Inhabited

def OptionValue.shown : OptionValue → String
  | .flag b => Data.booleanShown b
  | .number n => toString n
  | .text s => Text.quoted s

structure OptionField where
  name : String
  default : OptionValue
  help : String
  importance : String
  deriving Repr, DecidableEq

inductive OptionGroup where
  /-- What all readers have in common. -/
  | readerBase
  | reader
  /-- What all writers have in common. -/
  | writerBase
  | writer
  deriving Repr, DecidableEq

namespace OptionGroup

def name : OptionGroup → String
  | .readerBase => "BaseParserOptions"
  | .reader => "TomlParserOptions"
  | .writerBase => "BaseRendererOptions"
  | .writer => "TomlRendererOptions"

def ofName? (s : String) : Option OptionGroup :=
  [readerBase, reader, writerBase, writer].find? fun g => g.name == s

/-- The fields of a group; those of the base group come first. -/
def fields : OptionGroup → List OptionField
  | .readerBase => [⟨"encoding", .text "utf-8", "Encoding for bytes and file input", "core"⟩]
  | .reader =>
    [⟨"encoding", .text "utf-8", "Encoding for bytes and file input", "core"⟩,
      ⟨"validate", .flag true, "Cross-check the document with tomllib before building the tree", "core"⟩,
      ⟨"max_nesting_depth", .number 64, "Maximum nesting of arrays and inline tables", "advanced"⟩]
  | .writerBase => [⟨"default_newline", .text "\n", "Line terminator for lines created programmatically", "core"⟩]
  | .writer =>
    [⟨"default_newline", .text "\n", "Line terminator for lines created programmatically", "core"⟩,
      ⟨"table_separator", .text "\n", "Text before headers of tables created programmatically", "advanced"⟩]

end OptionGroup

inductive OptionError where
  | unexpected (group : OptionGroup) (name : String)
  | emptyEncoding
  | nestingTooSmall (n : Int)
  /-- A line terminator that ends no line. -/
  | badNewline (s : String)
  /-- A separator that shows. -/
  | badSeparator (s : String)
  /-- An assignment to an option of a finished group. -/
  | immutable (name : String)
  deriving Repr, DecidableEq

def OptionError.message : OptionError → String
  | .unexpected g name => g.name ++ ".__init__() got an unexpected keyword argument " ++ Text.quoted name
  | .emptyEncoding => "encoding must not be empty"
  | .nestingTooSmall n => "max_nesting_depth must be at least 1, got " ++ toString n
  | .badNewline s => "default_newline must be '\\n' or '\\r\\n', got " ++ Text.quoted s
  | .badSeparator s => "table_separator must only contain whitespace, got " ++ Text.quoted s
  | .immutable name => "cannot assign to field " ++ Text.quoted name

/-- The values of a group of options. -/
structure OptionSet where
  group : OptionGroup
  values : List OptionValue
  deriving Repr, DecidableEq

namespace OptionSet

def defaults (g : OptionGroup) : OptionSet := ⟨g, g.fields.map OptionField.default⟩

def get? (o : OptionSet) (name : String) : Option OptionValue :=
  ((o.group.fields.map OptionField.name).zip o.values).lookup name

def shown (o : OptionSet) : String :=
  let parts := (o.group.fields.zip o.values).map fun (f, v) => f.name ++ "=" ++ v.shown
  o.group.name ++ "(" ++ ", ".intercalate parts ++ ")"

/-- Whether a text has blanks and line ends only. -/
def isBlankText (s : String) : Bool := s.toList.all fun c => c == ' ' || c == '\t' || c == '\r' || c == '\n'

def fault? (name : String) (v : OptionValue) : Option OptionError :=
  match name, v with
  | "encoding", .text s => if s.isEmpty then some .emptyEncoding else none
  | "max_nesting_depth", .number n => if n < 1 then some (.nestingTooSmall n) else none
  | "default_newline", .text s => if s == "\n" || s == "\r\n" then none else some (.badNewline s)
  | "table_separator", .text s => if isBlankText s then none else some (.badSeparator s)
  | _, _ => none

/-- The set itself if all its values are fit; else what is wrong with the first unfit one. -/
def checked (o : OptionSet) : Except OptionError OptionSet :=
  match (o.group.fields.zip o.values).findSome? fun (f, v) => fault? f.name v with
  | some e => .error e
  | none => .ok o

/-- The set with some values replaced. -/
def update (o : OptionSet) (given : List (String × OptionValue)) : Except OptionError OptionSet :=
  match given.find? fun g => !(o.group.fields.any fun f => f.name == g.1) with
  | some (name, _) => .error (.unexpected o.group name)
  | none =>
    checked { o with values := (o.group.fields.zip o.values).map fun (f, v) => (given.lookup f.name).getD v }

/-- The options of a group, some of them given. -/
def make (g : OptionGroup) (given : List (String × OptionValue)) : Except OptionError OptionSet :=
  (defaults g).update given

/-- The text of an option, and no text for another kind of value. -/
def text (o : OptionSet) (name : String) : String :=
  match o.get? name with
  | some (.text s) => s
  | _ => ""

end OptionSet

/-! ## Options as they are used -/

structure ReadOptions where
  encoding : String := "utf-8"
  /-- Whether the strict reader checks the whole text first. -/
  validate : Bool := true
  /-- How deep arrays and inline tables may be nested. -/
  maxNesting : Nat := 64
  deriving Repr, DecidableEq

/-- The defaults for lines that an edit has made. -/
structure Layout where
  newline : String := "\n"
  /-- The text before the header of a new table, unless nothing was written yet. -/
  separator : String := "\n"
  deriving Repr, DecidableEq

namespace OptionSet

def readOptions (o : OptionSet) : ReadOptions where
  encoding := o.text "encoding"
  validate := o.get? "validate" != some (.flag false)
  maxNesting :=
    match o.get? "max_nesting_depth" with
    | some (.number n) => n.toNat
    | _ => 64

/-- The options of writing that a set holds. -/
def layout (o : OptionSet) : Layout where
  newline := o.text "default_newline"
  separator := o.text "table_separator"

end OptionSet

end Verbatim
