import Verbatim.Failure
import Verbatim.Item.Sharing

/-!
# Workspaces

A workspace keeps named documents and named items that a caller holds. Items are shared: what is done to a held item is done
to the document that it stands in, and a snapshot that is handed over leaves its items in the hands that hold them.
-/

namespace Verbatim

/-- What a document of a workspace is. -/
inductive Content where
  | snapshot (s : Snapshot)
  | consumed (mode : SourceMode)
  | document (d : Document)

structure Slot where
  content : Content
  /-- The kind of what stands in place of the root table, if something else does. -/
  broken : Option String := none

namespace Slot

def root (s : Slot) : Except Failure Item :=
  match s.content, s.broken with
  | .consumed _, _ => .error .consumed
  | _, some kind => .error (.rootNotTable kind)
  | .snapshot x, none => .ok x.root
  | .document d, none => .ok d.root

def trailing (s : Slot) : Except Failure SpanText :=
  match s.content with
  | .snapshot x => .ok x.trailing
  | .consumed _ => .error .consumed
  | .document d => .ok d.trailing

def raw (s : Slot) : Except Failure String :=
  match s.content with
  | .snapshot x => .ok x.source
  | .consumed _ => .error .consumed
  | .document _ => .error (.misfit "not a snapshot")

def render (layout : Layout) (s : Slot) : Except Failure String :=
  match s.root with
  | .error e => .error e
  | .ok _ =>
    match s.content with
    | .snapshot x => (x.render layout).mapError .render
    | .consumed _ => .error .consumed
    | .document d => (d.render layout).mapError .render

def consumedShown : String := "ImDocument(<consumed>)"

def shown (s : Slot) : Except Failure String :=
  match s.content, s.root with
  | .consumed _, _ => .ok consumedShown
  | _, .error e => .error e
  | .snapshot x, .ok _ => .ok x.shown
  | .document d, .ok _ => .ok d.shown

def mapRoot (f : Item → Item) (s : Slot) : Slot :=
  match s.content with
  | .snapshot x => { s with content := .snapshot { x with root := f x.root } }
  | .consumed _ => s
  | .document d => { s with content := .document { d with root := f d.root } }

end Slot

/-- Named documents and held items. -/
structure Workspace where
  documents : List (String × Slot) := []
  held : List (String × Item) := []
  next : Nat := 1

/-- How an item is named: a document or a held item, and a path from there. -/
structure Locator where
  document : String := "main"
  /-- The held item, which comes before the document. -/
  held : Option String := none
  path : List Segment := []

/-- The list with a value under a name, in place of an earlier one. -/
def putNamed {α : Type} (name : String) (x : α) : List (String × α) → List (String × α)
  | [] => [(name, x)]
  | (n, y) :: rest => if n == name then (name, x) :: rest else (n, y) :: putNamed name x rest

namespace Workspace

def slot (w : Workspace) (name : String) : Except Failure Slot :=
  match w.documents.lookup name with
  | some s => .ok s
  | none => .error (.misfit ("no document " ++ name))

def start (w : Workspace) (l : Locator) : Except Failure Item :=
  match l.held with
  | some name =>
    match w.held.lookup name with
    | some x => .ok x
    | none => .error (.misfit ("no held item " ++ name))
  | none => do (← w.slot l.document).root

def find (w : Workspace) (l : Locator) : Except Failure Item := do
  let x ← w.start l
  (x.follow l.path).mapError .path

def findMapping (w : Workspace) (l : Locator) : Except Failure Item := do
  let x ← w.find l
  if x.isMapping then .ok x else .error (.misfit "not a mapping")

def findArray (w : Workspace) (l : Locator) : Except Failure Item := do
  let x ← w.find l
  if x.elements?.isSome then .ok x else .error (.misfit "not an array")

def findEntry (w : Workspace) (l : Locator) (name : String) : Except Failure (Item × Entry Item) := do
  let x ← w.findMapping l
  match x.entryNamed? name with
  | some e => .ok (x, e)
  | none => .error (.path (.missing name))

/-- The workspace with a new version of an item in all places. -/
def commit (w : Workspace) (x : Item) : Workspace :=
  let (x, next) := x.labelled w.next
  let news := x.versions
  { documents := w.documents.map fun (n, s) => (n, s.mapRoot (Item.graft news))
    held := w.held.map fun (n, y) => (n, y.graft news)
    next }

/-- The workspace with a document under a name. -/
def put (w : Workspace) (name : String) (s : Slot) : Workspace :=
  match s.root with
  | .error _ => { w with documents := putNamed name s w.documents }
  | .ok root =>
    let (root, next) := root.labelled w.next
    { w with documents := putNamed name (s.mapRoot fun _ => root) w.documents, next }

end Workspace

end Verbatim
