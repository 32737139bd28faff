import Verbatim.Data
import Verbatim.DataReader.Basic
import Verbatim.Number.Reader
import Verbatim.Text.Upper

/-!
# Switches and operands

A program is called with switches, whose names start with a dash, and with operands. A grammar says which of them there
are, and what a switch does.
-/

namespace Verbatim.CommandLine

/-! ## Values of arguments -/

/-- How the text of an argument becomes a value. -/
inductive Conversion where
  | text
  | upper
  | integer
  | float
  deriving Repr, DecidableEq

namespace Conversion

def name : Conversion → String
  | .text => "str"
  | .upper => "upper"
  | .integer => "int"
  | .float => "float"

/-- The number of digits that a text starts with, behind blanks and a sign. -/
def digitCount (s : String) : Nat :=
  (((Number.signed (Text.trim s.toList)).2.takeWhile fun c => Text.isDecimalDigit c || c == '_').filter (· != '_')).length

/-- The value that a text stands for. -/
def valueOf? (c : Conversion) (s : String) : Option Plain :=
  match c with
  | .text => some (.string s)
  | .upper => some (.string (Text.upper s))
  | .integer =>
    if DataReader.maxIntegerDigits < digitCount s then none else (Number.integerOf? s).map .integer
  | .float => (Number.floatOf? s).map .float

/-- Why a text stands for no value. Long texts are shown in part where an integer was expected. -/
def reason (c : Conversion) (s : String) : String :=
  match c with
  | .float => "could not convert string to float: " ++ Text.quoted s
  | _ =>
    if DataReader.maxIntegerDigits < digitCount s then (DataReader.ReadCause.tooManyDigits (digitCount s)).message
    else "invalid literal for int() with base 10: " ++ String.ofList ((Text.quotedChars s.toList).take 200)

end Conversion

/-! ## Grammars -/

inductive Effect where
  /-- It keeps the argument that follows, which may be limited to some choices. -/
  | keep (conversion : Conversion) (choices : Option (List Plain))
  /-- It stands for a truth value. -/
  | set (b : Bool)
  /-- It ends the program with a text. -/
  | announce (text : String)

structure Switch where
  /-- Its names, dashes included. -/
  names : List String
  /-- The name under which its value is found. -/
  dest : String
  effect : Effect
  default : Plain := .none

namespace Switch

def label (s : Switch) : String := "/".intercalate s.names

def takesArgument (s : Switch) : Bool :=
  match s.effect with
  | .keep .. => true
  | .set _ | .announce _ => false

end Switch

/-- How much an operand takes. -/
inductive Extent where
  | one
  /-- One argument or more; no operand follows. -/
  | many
  /-- The name of a command and all that follows it; no operand follows. -/
  | command (names : List String)

structure Operand where
  dest : String
  /-- Its name in messages. -/
  label : String
  extent : Extent := .one

/-- What a program, or a command of it, can be called with. -/
structure Grammar where
  program : String
  switches : List Switch
  operands : List Operand := []

namespace Grammar

/-- Every name with its switch, in order. -/
def table (g : Grammar) : List (String × Switch) := g.switches.flatMap fun s => s.names.map fun n => (n, s)

def named? (g : Grammar) (name : String) : Option Switch := g.table.lookup name

end Grammar

/-! ## Refusals -/

inductive Refusal where
  /-- A shortened name that stands for several switches. -/
  | ambiguous (given : String) (names : List String)
  /-- An argument for a switch that takes none. -/
  | ignored (label argument : String)
  /-- A switch without its argument. -/
  | expected (label : String)
  | invalidValue (label kind argument : String)
  | invalidChoice (label : String) (value : Plain) (choices : List Plain)
  | missing (labels : List String)
  | unrecognized (arguments : List String)

def Refusal.message : Refusal → String
  | .ambiguous given names => "ambiguous option: " ++ given ++ " could match " ++ ", ".intercalate names
  | .ignored label argument => "argument " ++ label ++ ": ignored explicit argument " ++ Text.quoted argument
  | .expected label => "argument " ++ label ++ ": expected one argument"
  | .invalidValue label kind argument =>
    "argument " ++ label ++ ": invalid " ++ kind ++ " value: " ++ Text.quoted argument
  | .invalidChoice label value choices =>
    "argument " ++ label ++ ": invalid choice: " ++ value.shown nofun ++ " (choose from " ++
      ", ".intercalate (choices.map fun c => c.shown nofun) ++ ")"
  | .missing labels => "the following arguments are required: " ++ ", ".intercalate labels
  | .unrecognized arguments => "unrecognized arguments: " ++ " ".intercalate arguments

/-- How reading the arguments ends without a call. -/
inductive Stop where
  | refused (program : String) (r : Refusal)
  | announced (text : String)

def usageExit : Nat := 2

def refusalLine (program : String) (r : Refusal) : String := program ++ ": error: " ++ r.message

end Verbatim.CommandLine
