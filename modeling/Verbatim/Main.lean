import Std.Time
import Verbatim.Program

/-!
# The command line

The outer layer of the program: it loads the files that an invocation names, runs the program on them, and carries out what
the run has written. All decisions are made in `Verbatim.run`.
-/

namespace Verbatim.CommandLine

/-- The variables that the program looks at. -/
def readEnvironment : IO Environment := do
  let names := variableSwitches.filterMap fun s => s.variableName?.map variableFor
  let values ← names.filterMapM fun n => do return (← IO.getEnv n).map fun v => (n, v)
  return fun n => values.lookup n

def Command.files : Command → List String
  | .check files => files
  | .keys file | .get file _ | .set file .. => [file]

/-- What stands at a path, if anything does. -/
def loadNode? (path : String) : IO (Option Node) := do
  try
    return some (.file (← IO.FS.readBinFile path).toList)
  catch
    | .noFileOrDirectory .. => return none
    | _ => return some .directory

/-- The log file is made unless it is there or cannot be made. -/
def touch (path : String) : IO Unit := do
  try
    let _ ← IO.FS.Handle.mk path .append
  catch _ => return ()

/-- The files that an invocation uses. -/
def loadStore (i : Invocation) : IO Store := do
  let log := (i.settings.logFile.filter fun f => !f.isEmpty).toList
  log.forM touch
  let nodes ← (i.command.files ++ log).filterMapM fun path => do
    return (← loadNode? (normalPath path)).map fun n => (normalPath path, n)
  return ⟨nodes⟩

/-- The files that a run has changed are written. -/
def saveStore (before after : Store) : IO Unit :=
  (after.nodes.filter fun n => !before.nodes.contains n).forM fun
    | (path, .file bytes) => IO.FS.writeBinFile path ⟨bytes.toArray⟩
    | (_, .directory) => pure ()

end Verbatim.CommandLine

open Verbatim CommandLine in
def main (args : List String) : IO UInt32 := do
  let env ← readEnvironment
  let stamp := (← Std.Time.PlainDateTime.now).format "uuuu-MM-dd HH:mm:ss"
  let store ← match Invocation.read env args with
    | .ok i => loadStore i
    | .error _ => pure {}
  let (ending, t) := run stamp env args { store }
  IO.print t.out
  IO.eprint t.err
  saveStore store t.store
  match ending with
  | .exit code => return code.toUInt32
  | .escaped (.failure f) =>
    IO.eprintln f.message
    return 1
  | .escaped _ => return 1
