import Verbatim.Store
import Verbatim.Text.Encoding
import Verbatim.Text.Upper

/-!
# The log

Records of what the program does go to the error stream and, if one is asked for, to a file. A record has a severity;
those below a threshold are dropped. The file has every record with time, command and origin, the error stream only if
that is asked for.
-/

namespace Verbatim

/-! ## Severities -/

/-- How much a record matters. -/
abbrev Severity := Int

namespace Severity

def debug : Severity := 10

def info : Severity := 20

def warning : Severity := 30

/-- The severities that have names; the first name of a severity is the one it is shown with. -/
def names : List (String × Severity) :=
  [("NOTSET", 0), ("DEBUG", 10), ("INFO", 20), ("WARNING", 30), ("ERROR", 40), ("CRITICAL", 50), ("WARN", 30),
    ("FATAL", 50)]

def name (n : Severity) : String :=
  match names.find? fun p => p.2 == n with
  | some p => p.1
  | none => "Level " ++ toString n

/-- The severity of a name in upper or lower case; an unknown name counts as `info`. -/
def ofText (s : String) : Severity := (names.lookup (Text.upper s)).getD info

end Severity

/-! ## Records -/

structure LogRecord where
  severity : Severity
  origin : String
  message : String
  /-- Whether an error gave rise to it, whose course then follows the message. -/
  hasCourse : Bool := false
  deriving Repr, DecidableEq

namespace LogRecord

/-- The line that stands for the course of an error. -/
def courseLine : String := "<traceback>"

/-- The message, with the course of the error if there is one. -/
def body (r : LogRecord) : String := r.message ++ (if r.hasCourse then "\n" ++ courseLine else "") ++ "\n"

def brief (r : LogRecord) : String := Severity.name r.severity ++ ": " ++ r.body

def originName (r : LogRecord) : String := if r.origin.isEmpty then "root" else r.origin

/-- The form of a record with time, command and origin. -/
def full (stamp command : String) (r : LogRecord) : String :=
  "[" ++ stamp ++ "] [" ++ Severity.name r.severity ++ "] [" ++ command ++ "] [" ++ r.originName ++ "] " ++ r.body

end LogRecord

/-! ## Writing -/

/-- The streams and files that a program writes to. -/
structure Terminal where
  store : Store := {}
  out : String := ""
  err : String := ""
  deriving Repr, DecidableEq

namespace Terminal

def print (text : String) (t : Terminal) : Terminal := { t with out := t.out ++ text }

def complain (text : String) (t : Terminal) : Terminal := { t with err := t.err ++ text }

/-- A text is added to a file; if that cannot be done, nothing happens. -/
def appendText (path text : String) (t : Terminal) : Terminal :=
  match t.store.append path (Text.Encoding.encodeUtf8 text.toList) with
  | .ok store => { t with store }
  | .error _ => t

end Terminal

/-- Which records are written, in which form, and where to. -/
structure Log where
  /-- The least severity of records that are written. -/
  threshold : Severity
  /-- Whether the error stream gets the full form. -/
  trace : Bool := false
  command : String := "-"
  /-- The file that gets all records. -/
  file : Option String := none
  stamp : String := ""
  deriving Repr, DecidableEq

namespace Log

/-- Whether records of a severity are written. There are none of severity zero or below. -/
def passes (l : Log) (n : Severity) : Bool := 0 < n && l.threshold ≤ n

/-- A record is written, unless it does not matter enough. -/
def write (l : Log) (r : LogRecord) (t : Terminal) : Terminal :=
  if l.passes r.severity then
    let full := r.full l.stamp l.command
    let t := t.complain (if l.trace then full else r.brief)
    match l.file with
    | some path => t.appendText path full
    | none => t
  else t

def placeCount (l : Log) : Nat := if l.file.isSome then 2 else 1

/-- The log of a run. A file that cannot be written to is reported and left out; one that can is made at once. -/
def start (threshold : Severity) (file : Option String) (trace : Bool) (command : Option String) (stamp : String)
    (t : Terminal) : Log × Terminal :=
  let name := command.getD ""
  let log : Log := { threshold, trace, command := if name.isEmpty then "-" else name, stamp }
  let path := file.getD ""
  if path.isEmpty then (log, t)
  else
    match t.store.append path [] with
    | .error fault =>
      (log, log.write ⟨.warning, "", "Could not create log file " ++ path ++ ": " ++ fault.text, false⟩ t)
    | .ok store =>
      let log := { log with file := some path }
      (log, log.write ⟨.debug, "", "Logging to file: " ++ path, false⟩ { t with store })

end Log

end Verbatim
