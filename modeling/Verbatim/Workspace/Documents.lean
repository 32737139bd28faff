import Verbatim.Workspace.Basic

/-!
# The documents of a workspace

Documents are read, made new, wrapped around a table, handed over and detached.
-/

namespace Verbatim.Workspace

/-- Reads a source into a document of a name: a snapshot or, if asked for, an editable document. -/
def parse (w : Workspace) (name : String) (options : OptionsArgument) (source : Source) (editable : Bool) :
    Except Failure Workspace := do
  let options ← options.resolve .reader
  let s ← (Verbatim.parse options.readOptions source).mapError .parse
  .ok (w.put name { content := if editable then .document s.toDocument else .snapshot s })

def create (w : Workspace) (name : String) (editable : Bool) : Workspace :=
  w.put name { content := if editable then .document {} else .snapshot .empty }

/-- Wraps a document around a table; nothing makes an empty document. -/
def wrap (w : Workspace) (name : String) (d : Input) : Except Failure Workspace :=
  match d with
  | .none => .ok (w.put name { content := .document {} })
  | .item x =>
    if x.isTable then .ok (w.put name { content := .document { root := x } }) else .error (.notRoot x.className)
  | d => .error (.notRoot d.inputKind)

/-- Whether data is a root for a snapshot. -/
def checkRoot (d : Input) : Except Failure Unit :=
  match d with
  | .item x => if x.isTable then .ok () else .error (.rootNotTable x.className)
  | d => .error (.rootNotTable d.inputKind)

/-- Hands a snapshot over to a document of another name, with its text detached or not. -/
def handOver (w : Workspace) (name target : String) (detached : Bool) : Except Failure Workspace := do
  let s ← w.slot name
  match s.content with
  | .document _ => .error (.misfit "already mutable")
  | .consumed _ => .error .consumed
  | .snapshot x =>
    let _ ← s.root
    let d := if detached then x.toDocument else x.handOver
    let w := { w with documents := putNamed name { content := .consumed x.mode } w.documents }
    .ok ((w.put target { content := .document d }).commit d.root)

def detachDocument (w : Workspace) (name : String) : Except Failure Workspace := do
  let s ← w.slot name
  match s.content with
  | .document d =>
    let detached ← d.detach.mapError .detach
    let _ ← s.root
    .ok ((w.put name { s with content := .document detached }).commit detached.root)
  | _ => .error (.misfit "not a document")

/-- Sets what follows the last line. -/
def setTrailing (w : Workspace) (name : String) (t : SpanText) : Except Failure Workspace := do
  let s ← w.slot name
  match s.content with
  | .document d =>
    .ok { w with documents := putNamed name { s with content := .document { d with trailing := t } } w.documents }
  | _ => .error (.misfit "not a document")

/-- Sets the root without any check. -/
def setRoot (w : Workspace) (name : String) (d : Input) : Except Failure Workspace := do
  let s ← w.slot name
  match d with
  | .item x =>
    if x.isTable then .ok (w.put name ({ s with broken := none }.mapRoot fun _ => x))
    else .ok { w with documents := putNamed name { s with broken := some x.className } w.documents }
  | d => .ok { w with documents := putNamed name { s with broken := some d.inputKind } w.documents }

end Verbatim.Workspace
