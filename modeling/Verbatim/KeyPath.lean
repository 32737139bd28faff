import Verbatim.Item.Path
import Verbatim.Parsing

/-!
# Key paths as text

A key path is given as it would stand before an equals sign. Reading it as a line gives its names; only the line grammar
decides, the strict reader is not asked.
-/

namespace Verbatim

inductive KeyPathError where
  | parse (e : ParseFailure)
  | empty
  deriving Repr, DecidableEq

/-- A key path as the only line of a snapshot. -/
def readKeyPath (path : String) : Except ParseFailure Snapshot :=
  parseText { validate := false } .borrowed (path ++ " = 0").toList

def splitKeyPath (path : String) : Except KeyPathError (List String) :=
  match readKeyPath path with
  | .error e => .error (.parse e)
  | .ok s =>
    match s.root.leadingPath? with
    | none => .error .empty
    | some names => .ok names

end Verbatim
