import Verbatim.Item.Attribute
import Verbatim.Item.Walk
import Verbatim.Workspace.Basic

/-!
# Edits in a workspace

Each edit finds the item that is named, makes its new version and puts it in all places. A refused edit changes nothing,
except that setting several entries keeps those before the refused one.
-/

namespace Verbatim.Workspace

def assign (w : Workspace) (l : Locator) (name : String) (d : Input) : Except Failure Workspace := do
  let x ← w.findMapping l
  (x.assign name d).mapError .edit |>.map w.commit

def erase (w : Workspace) (l : Locator) (name : String) : Except Failure Workspace := do
  let x ← w.findMapping l
  (x.erase name).mapError .edit |>.map w.commit

/-- Takes out an entry. With a default, a missing entry gives the default. -/
def pop (w : Workspace) (l : Locator) (name : String) (default : Option Input) : Except Failure (Input × Workspace) := do
  let x ← w.findMapping l
  match default, x.get? name with
  | some d, none => .ok (d, w)
  | _, _ =>
    let (y, x) ← (x.pop name).mapError .edit
    .ok (.item y, w.commit x)

def popFirst (w : Workspace) (l : Locator) : Except Failure (String × Item × Workspace) := do
  let x ← w.findMapping l
  let (name, y, x) ← x.popFirst.mapError .edit
  .ok (name, y, w.commit x)

def clear (w : Workspace) (l : Locator) : Except Failure Workspace := do
  let x ← w.findMapping l
  x.clear.mapError .edit |>.map w.commit

def assignAll (w : Workspace) (l : Locator) (d : Input) : Workspace × Except Failure Unit :=
  match w.findMapping l with
  | .error e => (w, .error e)
  | .ok x =>
    match d.pairs? with
    | none => (w, .error (.edit (.notMapping d.inputKind)))
    | some es =>
      let (x, r) := x.assignAll es
      (w.commit x, r.mapError .edit)

def setDefault (w : Workspace) (l : Locator) (name : String) (d : Input) : Except Failure (Input × Workspace) := do
  let x ← w.findMapping l
  let (found, x) ← (x.setDefault name d).mapError .edit
  .ok (found, w.commit x)

/-- Appends to an array or array of tables: the new length. -/
def append (w : Workspace) (l : Locator) (d : Input) : Except Failure (Nat × Workspace) := do
  let x ← w.findArray l
  let x ← (x.append d).mapError .edit
  .ok ((x.elements?.getD []).length, w.commit x)

def dropAt (w : Workspace) (l : Locator) (n : Int) : Except Failure Workspace := do
  let x ← w.findArray l
  (x.dropAt n).mapError .edit |>.map w.commit

/-- Changes the text around an item, or around the key of one of its entries: the new text around it. -/
def setDecor (w : Workspace) (l : Locator) (key : Option String) (change : DecorChange) :
    Except Failure (Decor × Workspace) := do
  match key with
  | some name =>
    let (x, e) ← w.findEntry l name
    let d := change.apply e.key.decor
    let es := Item.updateEntry name (fun e => { e with key := { e.key with decor := d } }) x.entries
    .ok (d, w.commit (x.withEntries es))
  | none =>
    let x ← w.find l
    match x.decor? with
    | none => .error (.misfit "no decor")
    | some d =>
      let d := change.apply d
      .ok (d, w.commit (x.withDecor d))

/-- Sets an attribute of an item, or of one of its entries. -/
def setAttribute (w : Workspace) (l : Locator) (key : Option String) (what : String) (a : Option Attribute) :
    Except Failure Workspace := do
  let unknown : Failure := .misfit ("attr " ++ what)
  match key with
  | some name =>
    let (x, e) ← w.findEntry l name
    match a.bind e.withAttribute? with
    | none => .error unknown
    | some e => .ok (w.commit (x.withEntries (Item.updateEntry name (fun _ => e) x.entries)))
  | none =>
    let x ← w.find l
    match a.bind x.withAttribute? with
    | none => .error unknown
    | some x => .ok (w.commit x)

def setKeyRepr (w : Workspace) (l : Locator) (name : String) (t : Option SpanText) : Except Failure Workspace := do
  let (x, _) ← w.findEntry l name
  let es := Item.updateEntry name (fun e => { e with key := { e.key with repr := t } }) x.entries
  .ok (w.commit (x.withEntries es))

/-- Marks an item and all items below it as read-only or editable. -/
def freeze (w : Workspace) (l : Locator) (b : Bool) : Except Failure Workspace := do
  let x ← w.find l
  .ok (w.commit (x.freeze b))

/-- Detaches an item from a source: the number of references that were replaced. -/
def detach (w : Workspace) (l : Locator) (source : String) : Except Failure (Nat × Workspace) := do
  let x ← w.find l
  .ok (x.refCount, w.commit (x.detach source.toList))

def hold (w : Workspace) (l : Locator) (name : String) : Except Failure (Item × Workspace) := do
  let x ← w.find l
  .ok (x, { w with held := putNamed name x w.held })

end Verbatim.Workspace
