import Verbatim.CommandLine.Invocation
import Verbatim.KeyPath
import Verbatim.Listing
import Verbatim.Log
import Verbatim.Report

/-!
# The program

The four commands, as they act on the files and streams of a terminal, and a whole run of the program: arguments in, exit
code out.
-/

namespace Verbatim

open CommandLine

/-! ## Errors -/

inductive CommandError where
  | failure (f : Failure)
  | emptyKeyPath
  /-- There is nothing at the beginning of a key path. -/
  | keyNotFound (key : String) (names : List String)
  /-- A value cannot be set because its parent is no table. -/
  | cannotSet (key : String) (parent : List String) (kind : String)

namespace CommandError

/-- The names of a key path with points between them, as they are displayed. -/
def shownNames (names : List String) : String := Text.quoted (".".intercalate names)

/-- The report on a key path that is unfit. -/
def keyReport (key message : String) : Report where
  kind := .validation
  message := message
  particulars := .parameter (some "key") (.string key)

/-- The report of an error that users are meant to handle. -/
def report? : CommandError → Option Report
  | .failure f => f.report?
  | .emptyKeyPath => none
  | .keyNotFound key names => some (keyReport key ("Key " ++ shownNames names ++ " not found"))
  | .cannotSet key parent kind =>
    some (keyReport key ("Cannot set " ++ Text.quoted key ++ ": " ++ shownNames parent ++ " is a " ++ kind))

end CommandError

/-! ## Jobs -/

/-- What a command does: it acts on a terminal and gives a result or gives up. -/
abbrev Job := ExceptT CommandError (StateM Terminal)

namespace Job

def note (log : Log) (severity : Severity) (origin message : String) (hasCourse : Bool) : Job Unit :=
  modify (log.write ⟨severity, origin, message, hasCourse⟩)

def print (text : String) : Job Unit := modify (Terminal.print text)

/-- The result of an operation on documents. -/
def lift {α : Type} (r : Except Failure α) : Job α := ExceptT.mk (pure (r.mapError .failure))

/-- What a file gives to read. -/
def source (log : Log) (path : String) : Job Source := do
  let path := normalPath path
  match (← get).store.read path with
  | .ok bytes =>
    note log .debug "tomlspan.parsers.base" ("Read " ++ toString bytes.length ++ " bytes from " ++ path) false
    return .bytes bytes
  | .error .notFound => return .missingFile path
  | .error fault => return .unreadableFile path (fault.text ++ ": " ++ Text.quoted path)

def snapshot (log : Log) (r : Except ParseFailure Snapshot) : Job Snapshot := do
  let s ← lift (r.mapError .parse)
  note log .debug "tomlspan.parsers.toml" ("Parsed TOML document: " ++ toString s.root.entries.length ++
    " top-level keys, " ++ toString s.source.length ++ " characters") false
  return s

def document (log : Log) (s : Snapshot) : Job Document := do
  let count := toString s.spans.length
  note log .debug "tomlspan.ast.visitors" ("Detached " ++ count ++ " span references") false
  note log .debug "tomlspan.document"
    ("Converted parsed document to mutable form (" ++ count ++ " spans detached)") false
  return s.toDocument

/-- A text that was written. -/
def rendered (log : Log) (r : Render.Rendered) : Job String := do
  let text ← lift (r.mapError .render)
  note log .debug "tomlspan.renderers.toml" ("Rendered TOML document: " ++ toString text.length ++ " characters") false
  return text

def snapshotOfFile (log : Log) (options : ReadOptions) (path : String) : Job Snapshot := do
  snapshot log (parse options (← source log path))

def documentOfFile (log : Log) (options : ReadOptions) (path : String) : Job Document := do
  document log (← snapshotOfFile log options path)

def keyNames (log : Log) (key : String) : Job (List String) := do
  let s ← snapshot log (readKeyPath key)
  match s.root.leadingPath? with
  | some names => return names
  | none => throw .emptyKeyPath

end Job

/-! ## Commands -/

def CommandLine.Settings.readOptions (s : Settings) : Except Failure ReadOptions :=
  ((OptionSet.make .reader [("encoding", .text s.encoding), ("validate", .flag s.validate)]).mapError .options).map
    OptionSet.readOptions

/-- The item that a path of names leads to. -/
def resolve (key : String) (before : List String) (x : Item) : List String → Except CommandError Item
  | [] => .ok x
  | name :: names =>
    match if x.isMapping then x.get? name else none with
    | some y => resolve key (before ++ [name]) y names
    | none => .error (.keyNotFound key (before ++ [name]))

/-- The rows of a check with the exit code that each calls for. -/
abbrev CheckRow := List Plain × Nat

/-- The row of a file that was read and written again. -/
def writtenRow (file source text : String) : CheckRow :=
  if text == source then ([.string file, .string "ok", .string ""], 0)
  else ([.string file, .string "changed", .string "rendering differs from the source"], 1)

/-- The row of a file that was given up. An error that nobody is meant to handle ends the whole command. -/
def failedRow (log : Log) (file : String) (e : CommandError) : Job CheckRow :=
  match e.report? with
  | none => throw e
  | some r => do
    Job.note log .debug "tomlspan.cli.commands" ("Check failed for " ++ file) true
    return ([.string file, .string "error", .string r.text], r.kind.exitCode)

def writeAgain (log : Log) (options : ReadOptions) (file : String) : Job CheckRow := do
  let s ← Job.snapshotOfFile log options file
  let d ← Job.document log s
  let text ← Job.rendered log (d.render {})
  return writtenRow file s.source text

/-- Whether a file is read and written back unchanged. -/
def checkFile (log : Log) (options : ReadOptions) (file : String) : Job CheckRow :=
  tryCatch (writeAgain log options file) (failedRow log file)

/-- Checks files one after the other. The first one that is not in order decides the exit code. -/
def checkFiles (log : Log) (options : ReadOptions) (files : List String) : Job Nat := do
  let rows ← files.mapM (checkFile log options)
  Job.print (listing nofun (rows.map Prod.fst))
  return ((rows.map Prod.snd).find? (· != 0)).getD 0

def listKeys (log : Log) (options : ReadOptions) (file : String) : Job Nat := do
  let s ← Job.snapshotOfFile log options file
  Job.print (listing nofun (s.root.entries.map fun e => [(.string e.name : Plain), .string e.item.typeName]))
  return 0

/-- The text of an item that was looked up: tables as documents, values as they stand behind an equals sign. -/
def itemText (log : Log) (x : Item) : Job String :=
  match x with
  | .table .. => Job.rendered log (Render.renderTable {} x)
  | .arrayOfTables _ ts => do
    let texts ← ts.mapM fun t => Job.rendered log (Render.renderTable {} t)
    return "\n".intercalate texts
  | _ => do
    let text ← Job.lift ((Render.valueRepr none x).mapError .render)
    return text ++ "\n"

def printItem (log : Log) (options : ReadOptions) (file key : String) : Job Nat := do
  let d ← Job.documentOfFile log options file
  let names ← Job.keyNames log key
  let x ← ExceptT.mk (pure (resolve key [] d.root names))
  Job.print (← itemText log x)
  return 0

/-- The value that a literal stands for, with no text around it. -/
def literalValue (log : Log) (options : ReadOptions) (literal : String) : Job Item := do
  let s ← Job.snapshot log (parse { options with validate := true } (.text ("v = " ++ literal ++ "\n")))
  let d ← Job.document log s
  match d.root.get? "v" with
  | some x => return x.withDecor {}
  | none => throw (.failure (.path (.missing "v")))

/-- Sets the value at a key path; the result goes back to the file or to the output stream. -/
def setValue (log : Log) (options : ReadOptions) (file key value : String) (inPlace : Bool) : Job Nat := do
  let d ← Job.documentOfFile log options file
  let names ← Job.keyNames log key
  let x ← literalValue log options value
  -- the literal is read before the path is followed, so its faults come first
  let above := names.dropLast
  let parent ← ExceptT.mk (pure (resolve key [] d.root above))
  if !parent.isMapping then throw (.cannotSet key above parent.typeName)
  let root ← Job.lift ((d.root.assignAt (names.getLast?.getD "") (.item x) above).mapError .edit)
  Job.note log .info "tomlspan.cli.commands" ("Set " ++ key ++ " = " ++ value) false
  let text ← Job.rendered log ({ d with root }.render {})
  if inPlace then
    modify fun t =>
      match t.store.write file (Text.Encoding.encodeUtf8 text.toList) with
      | .ok store => { t with store }
      | .error _ => t
  else Job.print text
  return 0

def perform (log : Log) (i : Invocation) : Job Nat := do
  let options ← Job.lift i.settings.readOptions
  match i.command with
  | .check files => checkFiles log options files
  | .keys file => listKeys log options file
  | .get file key => printItem log options file key
  | .set file key value inPlace => setValue log options file key value inPlace

/-! ## Runs -/

inductive Ending where
  | exit (code : Nat)
  /-- With an error that users are not meant to handle. -/
  | escaped (e : CommandError)

/-- Does what the program is asked to do and reports the errors that users are meant to handle. -/
def performReporting (log : Log) (i : Invocation) (t : Terminal) : Ending × Terminal :=
  match (perform log i).run t with
  | (.ok code, t) => (.exit code, t)
  | (.error e, t) =>
    match e.report? with
    | none => (.escaped e, t)
    | some r =>
      let t := log.write ⟨.debug, "tomlspan.cli", "Command " ++ i.command.name ++ " failed", true⟩ t
      (.exit r.kind.exitCode, t.complain ("Error: " ++ r.text ++ "\n"))

/-- A run of the program, at a time that is noted in the log. -/
def run (stamp : String) (env : Environment) (args : List String) (t : Terminal) : Ending × Terminal :=
  match Invocation.read env args with
  | .error (.refused program r) => (.exit usageExit, t.complain (refusalLine program r ++ "\n"))
  | .error (.announced text) => (.exit 0, t.print text)
  | .ok i =>
    let s := i.settings
    let (log, t) := Log.start (Severity.ofText s.logLevel) s.logFile s.trace (some i.command.name) stamp t
    performReporting log i t

end Verbatim
