import Verbatim.CommandLine.Environment

/-!
# Invocations

What the program is asked to do: one of four commands, with settings that hold for all of them.
-/

namespace Verbatim.CommandLine

structure Settings where
  /-- The least severity of log records that are written. -/
  logLevel : String := "WARNING"
  logFile : Option String := none
  /-- Whether log records are written with time, command and origin. -/
  trace : Bool := false
  /-- Whether tables are wanted with decoration. -/
  rich : Bool := false
  /-- Whether that holds for a stream that is no terminal, too. -/
  forceRich : Bool := false
  encoding : String := "utf-8"
  validate : Bool := true
  deriving Repr, DecidableEq

inductive Command where
  | check (files : List String)
  | keys (file : String)
  | get (file key : String)
  | set (file key value : String) (inPlace : Bool)
  deriving Repr, DecidableEq

def Command.name : Command → String
  | .check _ => "check"
  | .keys _ => "keys"
  | .get .. => "get"
  | .set .. => "set"

structure Invocation where
  settings : Settings
  command : Command
  deriving Repr, DecidableEq

/-! ## The grammar of the program -/

def programName : String := "tomlspan"

def versionText : String := programName ++ " 0.1.0\n"

def usageLine (program : String) (switches : List Switch) (operands : List Operand) : String :=
  let parts := switches.map (fun s => "[" ++ s.label ++ "]") ++ operands.map Operand.label
  "usage: " ++ " ".intercalate (program :: parts) ++ "\n"

/-- A grammar with a switch that tells how the program is called. -/
def withHelp (program : String) (switches : List Switch) (operands : List Operand) : Grammar where
  program := program
  switches :=
    { names := ["-h", "--help"], dest := "help", effect := .announce (usageLine program switches operands) } :: switches
  operands := operands

def logLevels : List Plain := [.string "DEBUG", .string "INFO", .string "WARNING", .string "ERROR"]

/-- The switches that take their defaults from the environment. -/
def variableSwitches : List Switch :=
  [ { names := ["--log-level"], dest := "log_level", effect := .keep .upper (some logLevels),
      default := .string "WARNING" },
    { names := ["--log-file"], dest := "log_file", effect := .keep .text none },
    { names := ["--trace"], dest := "trace", effect := .set true, default := .boolean false },
    { names := ["--rich"], dest := "rich", effect := .set true, default := .boolean false },
    { names := ["--force-rich"], dest := "force_rich", effect := .set true, default := .boolean false },
    { names := ["--encoding"], dest := "encoding", effect := .keep .text none, default := .string "utf-8" } ]

def commandNames : List String := ["check", "keys", "get", "set"]

def programGrammar (env : Environment) : Grammar :=
  withHelp programName
    ({ names := ["--version"], dest := "version", effect := .announce versionText } ::
      variableSwitches.map (fun s => (s.withEnvironment env).1) ++
      [{ names := ["--no-validate"], dest := "validate", effect := .set false, default := .boolean true }])
    [{ dest := "command", label := "COMMAND", extent := .command commandNames }]

def fileOperand : Operand := { dest := "file", label := "FILE" }

def keyOperand : Operand := { dest := "key", label := "KEY" }

def commandGrammars : List (String × Grammar) :=
  [ ("check", withHelp "tomlspan check" [] [{ dest := "files", label := "FILE", extent := .many }]),
    ("keys", withHelp "tomlspan keys" [] [fileOperand]),
    ("get", withHelp "tomlspan get" [] [fileOperand, keyOperand]),
    ("set", withHelp "tomlspan set"
      [{ names := ["--in-place", "-i"], dest := "in_place", effect := .set true, default := .boolean false }]
      [fileOperand, keyOperand, { dest := "value", label := "VALUE" }]) ]

/-! ## Invocations from values -/

abbrev Values := List (String × Plain)

namespace Values

def text? (vs : Values) (name : String) : Option String :=
  match vs.lookup name with
  | some (.string s) => some s
  | _ => none

/-- The displayed form of one of the values, empty if it is not there. -/
def text (vs : Values) (name : String) : String := (vs.lookup name).elim "" fun d => d.cell nofun

def flag (vs : Values) (name : String) : Bool :=
  match vs.lookup name with
  | some (.boolean b) => b
  | _ => false

def texts (vs : Values) (name : String) : List String :=
  match vs.lookup name with
  | some (.list xs) => xs.filterMap fun
    | .string s => some s
    | _ => none
  | _ => []

def settings (vs : Values) : Settings where
  logLevel := text vs "log_level"
  logFile := text? vs "log_file"
  trace := flag vs "trace"
  rich := flag vs "rich"
  forceRich := flag vs "force_rich"
  encoding := text vs "encoding"
  validate := flag vs "validate"

def command (vs : Values) : Command :=
  match text vs "command" with
  | "check" => .check (texts vs "files")
  | "keys" => .keys (text vs "file")
  | "get" => .get (text vs "file") (text vs "key")
  | _ => .set (text vs "file") (text vs "key") (text vs "value") (flag vs "in_place")

end Values

def Invocation.read (env : Environment) (args : List String) : Except Stop Invocation :=
  ((programGrammar env).readWith commandGrammars "command" args).map fun vs =>
    ⟨Values.settings vs, Values.command vs⟩

end Verbatim.CommandLine
