import Verbatim.Item.Basic

/-!
# Items from data

Data becomes an item in two ways. As a *value*, a table is written inline and a list is an array. As a *member* of a table
of its own, a table gets a header, and a list of tables becomes an array of tables. An item among the data stays the item it
is when it stands in an array, and is copied when it is put under a name.
-/

namespace Verbatim

inductive ConvertError where
  /-- A table or an array of tables where a value must stand. -/
  | notValue (typeName : String)
  /-- Data that has no form in a document. -/
  | unsupported (kind : String)
  /-- Something else where a table must stand. -/
  | notTable (kind : String)
  deriving Repr, DecidableEq

def ConvertError.message : ConvertError → String
  | .notValue typeName => "A " ++ typeName ++ " cannot be used as a value"
  | .unsupported kind => "Cannot convert " ++ kind ++ " to a TOML value"
  | .notTable kind => "Expected a table, got " ++ kind

def Data.inputKind (d : Input) : String := d.kindName Item.className

/-- Whether data maps names to values. -/
def Data.isMapping : Input → Bool
  | .table _ | .mapping _ => true
  | .item x => x.isMapping
  | _ => false

def Data.isItem : Input → Bool
  | .item _ => true
  | _ => false

namespace Item

/-! ## Putting an item under a name -/

/-- The item that takes the place of another one: a value without text around it takes over the text around the value
that it replaces. -/
def replacing (old new : Item) : Item :=
  match old.isValue && new.isValue, old.decor?, new.decor? with
  | true, some d, some d' => if d'.isUnset then new.withDecor d else new
  | _, _, _ => new

/-- Puts an item under a name: in place of what stands there, or behind all other entries. -/
def place (name : String) (new : Item) (es : List (Entry Item)) : List (Entry Item) :=
  match findNamed? name es with
  | none => es ++ [{ key := { name }, item := new }]
  | some _ => updateEntry name (fun e => { e with item := replacing e.item new }) es

/-! ## Scalars -/

def scalarOf? : Input → Option Item
  | .boolean b => some (.scalar {} { kind := .boolean, value := .boolean b })
  | .integer n => some (.scalar {} { kind := .integer, value := .integer n })
  | .float x => some (.scalar {} { kind := .float, value := .float x })
  | .string s => some (.scalar {} { kind := .string, value := .string s })
  | .date d => some (.scalar {} { kind := .dateTime, value := .date d })
  | .time t => some (.scalar {} { kind := .dateTime, value := .time t })
  | .dateTime x => some (.scalar {} { kind := .dateTime, value := .dateTime x })
  | _ => none

/-- An item as it is put under a name: an item among the data is copied. -/
def ownedFor (d : Input) (x : Item) : Item := if d.isItem then x.copied else x

/-! ## Values -/

mutual

def ofValue : Input → Except ConvertError Item
  -- an item stays itself here; whoever puts it under a name makes the copy
  | .item x => if x.isValue then .ok x else .error (.notValue x.typeName)
  | .table es =>
    match inlineFields [] es with
    | .ok entries => .ok (.inlineTable {} {} entries)
    | .error e => .error e
  | .mapping es =>
    match inlinePairs [] es with
    | .ok entries => .ok (.inlineTable {} {} entries)
    | .error e => .error e
  | .list xs =>
    match ofValues xs with
    | .ok values => .ok (.array {} {} values)
    | .error e => .error e
  | .tuple xs =>
    match ofValues xs with
    | .ok values => .ok (.array {} {} values)
    | .error e => .error e
  | d =>
    match scalarOf? d with
    | some x => .ok x
    | none => .error (.unsupported d.inputKind)

def ofValues : List Input → Except ConvertError (List Item)
  | [] => .ok []
  | d :: ds =>
    match ofValue d with
    | .error e => .error e
    | .ok x =>
      match ofValues ds with
      | .error e => .error e
      | .ok xs => .ok (x :: xs)

/-- The entries of an inline table, put one after the other behind those already there. -/
def inlineFields (entries : List (Entry Item)) : List (String × Input) → Except ConvertError (List (Entry Item))
  | [] => .ok entries
  | (name, d) :: es =>
    match ofValue d with
    | .error e => .error e
    | .ok x => inlineFields (place name (ownedFor d x) entries) es

def inlinePairs (entries : List (Entry Item)) : List (Input × Input) → Except ConvertError (List (Entry Item))
  | [] => .ok entries
  | (k, d) :: es =>
    match ofValue d with
    | .error e => .error e
    | .ok x => inlinePairs (place (k.cell Item.className) (ownedFor d x) entries) es

end

/-! ## Members -/

/-- Whether data becomes an array of tables. -/
def isTableList (ds : List Input) : Bool := !ds.isEmpty && ds.all Data.isMapping

mutual

/-- Data as a member of a table of its own. -/
def ofMember : Input → Except ConvertError Item
  | .item x => .ok x
  | .table es =>
    match memberFields [] es with
    | .ok entries => .ok (.table {} {} entries)
    | .error e => .error e
  | .mapping es =>
    match memberPairs [] es with
    | .ok entries => .ok (.table {} {} entries)
    | .error e => .error e
  | .list ds =>
    if isTableList ds then
      match ofTables ds with
      | .error e => .error e
      | .ok tables => .ok (.arrayOfTables {} tables)
    else ofValue (.list ds)
  | .tuple ds =>
    if isTableList ds then
      match ofTables ds with
      | .error e => .error e
      | .ok tables => .ok (.arrayOfTables {} tables)
    else ofValue (.tuple ds)
  | d => ofValue d

def ofTables : List Input → Except ConvertError (List Item)
  | [] => .ok []
  | d :: ds =>
    match ofMember d with
    | .error e => .error e
    | .ok x =>
      if x.isTable then
        match ofTables ds with
        | .error e => .error e
        | .ok xs => .ok (ownedFor d x :: xs)
      else .error (.notTable d.inputKind)

/-- The entries of a table, put one after the other behind those already there. -/
def memberFields (entries : List (Entry Item)) : List (String × Input) → Except ConvertError (List (Entry Item))
  | [] => .ok entries
  | (name, d) :: es =>
    match ofMember d with
    | .error e => .error e
    | .ok x => memberFields (place name (ownedFor d x) entries) es

def memberPairs (entries : List (Entry Item)) : List (Input × Input) → Except ConvertError (List (Entry Item))
  | [] => .ok entries
  | (k, d) :: es =>
    match ofMember d with
    | .error e => .error e
    | .ok x => memberPairs (place (k.cell Item.className) (ownedFor d x) entries) es

end

/-- Data as a table at the end of an array of tables. -/
def ofTable (d : Input) : Except ConvertError Item :=
  match ofMember d with
  | .error e => .error e
  | .ok x => if x.isTable then .ok (ownedFor d x) else .error (.notTable d.inputKind)

end Item

end Verbatim
