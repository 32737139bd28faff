import Verbatim.CommandLine.Reading

/-!
# Defaults from the environment

A switch can take its default from a variable of the environment, whose name is that of the switch in upper case behind a
common beginning. A variable that stands for no value is reported and leaves the default as it is.
-/

namespace Verbatim.CommandLine

abbrev Environment := String → Option String

def underscored (cs : List Char) : List Char := cs.map fun c => if c = '-' then '_' else c

def variableFor (name : String) : String :=
  "TOMLSPAN_" ++ String.ofList (underscored (Text.upper name).toList)

/-- The name under which the value of a switch is found: its first long name, or else its first name, without the
dashes in front. -/
def destOf (names : List String) : String :=
  let name := (names.find? fun n => isLongName n.toList).getD (names.headD "")
  String.ofList (underscored (name.toList.dropWhile (· == '-')))

/-- The name that gives a switch its variable: the one under which its value is found, or else its first long name. -/
def Switch.variableName? (s : Switch) : Option String :=
  if s.dest.isEmpty then
    (s.names.find? fun n => isLongName n.toList).map fun n => String.ofList (underscored (n.toList.drop 2))
  else some s.dest

/-- Whether a text says yes. -/
def isAffirmative (s : String) : Bool :=
  ["true", "1", "yes", "on"].contains (String.ofList (s.toList.map Char.toLower))

/-- A variable that stands for no value. -/
structure BadVariable where
  name : String
  text : String
  reason : String
  deriving Repr, DecidableEq

def BadVariable.message (b : BadVariable) : String :=
  "Invalid environment variable " ++ b.name ++ "=" ++ b.text ++ ": " ++ b.reason

/-- The line that reports such a variable before there is a log. -/
def BadVariable.line (b : BadVariable) : String := "WARNING:root:" ++ b.message ++ "\n"

def Switch.defaultFrom (s : Switch) (name text : String) : Except BadVariable Plain :=
  match s.effect with
  | .keep c _ =>
    match c.valueOf? text with
    | some v => .ok v
    | none => .error ⟨name, text, c.reason text⟩
  | .set _ | .announce _ => .ok (.boolean (isAffirmative text))

/-- The switch with the default that the environment gives, and what is wrong with its variable. -/
def Switch.withEnvironment (env : Environment) (s : Switch) : Switch × Option BadVariable :=
  match s.variableName?.map variableFor with
  | none => (s, none)
  | some name =>
    match (env name).map (s.defaultFrom name) with
    | none => (s, none)
    | some (.ok d) => ({ s with default := d }, none)
    | some (.error b) => (s, some b)

end Verbatim.CommandLine
