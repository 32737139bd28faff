import Verbatim.Item.Convert
import Verbatim.Item.Path

/-!
# Edits of items

The edits of tables, inline tables, arrays and arrays of tables. An item of a snapshot refuses them; a refused edit leaves
the item as it is.
-/

namespace Verbatim

inductive EditError where
  | readOnly (typeName : String)
  | missing (name : String)
  | noEntries
  | outOfRange
  | convert (e : ConvertError)
  | notMapping (kind : String)
  deriving Repr, DecidableEq

def EditError.message : EditError → String
  | .readOnly typeName => "Cannot modify a " ++ typeName ++ " of an immutable document; use into_mut() first"
  | .missing name => Text.quoted name
  | .noEntries => ""
  | .outOfRange => "list assignment index out of range"
  | .convert e => e.message
  | .notMapping kind => "'" ++ kind ++ "' object is not iterable"

/-- The names and values of data that maps names to values. -/
def Data.pairs? : Input → Option (List (String × Input))
  | .table es => some es
  | .mapping es => some (Data.namedPairs Item.className es)
  | .item x => if x.isMapping then some (x.entries.map fun e => (e.name, .item e.item)) else Option.none
  | _ => Option.none

namespace Item

/-- The item itself unless it refuses edits. -/
def editable (x : Item) : Except EditError Item :=
  if x.frozen then .error (.readOnly x.typeName) else .ok x

/-- Data in the form that the entries of an item have: values in inline tables, members elsewhere. -/
def coerced (x : Item) (d : Input) : Except EditError Item :=
  match if x.isInlineTable then ofValue d else ofMember d with
  | .ok y => .ok (ownedFor d y)
  | .error e => .error (.convert e)

/-! ## Tables -/

def assign (name : String) (d : Input) (x : Item) : Except EditError Item := do
  let x ← x.editable
  let y ← x.coerced d
  .ok (x.withEntries (place name y x.entries))

/-- Sets the entry of a name in the table that a path of names leads to. -/
def assignAt (name : String) (d : Input) : List String → Item → Except EditError Item
  | [], x => x.assign name d
  | n :: path, x =>
    match x.get? n with
    | none => .error (.missing n)
    | some y =>
      (assignAt name d path y).map fun y => x.withEntries (updateEntry n (fun e => { e with item := y }) x.entries)

def erase (name : String) (x : Item) : Except EditError Item := do
  let x ← x.editable
  match x.entryNamed? name with
  | none => .error (.missing name)
  | some _ => .ok (x.withEntries (eraseEntry name x.entries))

/-- Takes out the entry of a name: its item, and what is left. A missing entry is reported before a refused edit. -/
def pop (name : String) (x : Item) : Except EditError (Item × Item) :=
  match x.get? name with
  | none => .error (.missing name)
  | some y => (x.erase name).map fun x' => (y, x')

/-- Takes out the first entry: its name, its item, and what is left. -/
def popFirst (x : Item) : Except EditError (String × Item × Item) :=
  match x.entries with
  | [] => .error .noEntries
  | e :: _ => (x.pop e.name).map fun (y, x') => (e.name, y, x')

def clear (x : Item) : Except EditError Item :=
  if x.entries.isEmpty then .ok x else x.editable.map (withEntries [])

/-- Sets several entries, one after the other. The first refused one ends the edit; those before it stay. -/
def assignAll (x : Item) : List (String × Input) → Item × Except EditError Unit
  | [] => (x, .ok ())
  | (name, d) :: es =>
    match x.assign name d with
    | .error e => (x, .error e)
    | .ok x' => x'.assignAll es

/-- Sets the entry of a name unless there is one: the item there or the data, and the new item. -/
def setDefault (name : String) (d : Input) (x : Item) : Except EditError (Input × Item) :=
  match x.get? name with
  | some y => .ok (.item y, x)
  | none => (x.assign name d).map fun x' => (d, x')

/-! ## Arrays -/

/-- Appends an element to an array, or a table to an array of tables. -/
def append (d : Input) (x : Item) : Except EditError Item := do
  let x ← x.editable
  match if x.isArrayOfTables then ofTable d else (ofValue d).map (ownedFor d) with
  | .error e => .error (.convert e)
  | .ok y => .ok (x.withElements (x.elements?.getD [] ++ [y]))

/-- Drops the element at a position, whether the item is editable or not. -/
def dropAt (n : Int) (x : Item) : Except EditError Item :=
  let ys := x.elements?.getD []
  match position? ys.length n with
  | none => .error .outOfRange
  | some i => .ok (x.withElements (ys.eraseIdx i))

end Item

end Verbatim
