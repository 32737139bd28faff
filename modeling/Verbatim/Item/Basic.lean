import Verbatim.Key
import Verbatim.Data

/-!
# Items

The tree of a document. An item is a scalar, an array, an inline table, a table or an array of tables; the members of
tables are entries. Every item remembers where it was read, and whether it belongs to a snapshot and so refuses edits.
-/

namespace Verbatim

/-- What an item remembers besides its contents. -/
structure Info where
  /-- Where the item stands in the source. -/
  span : Option Span := none
  /-- Whether the item belongs to a snapshot and refuses edits. -/
  frozen : Bool := false
  /-- The label by which a workspace tells items apart; zero for an item that it has not seen. -/
  label : Nat := 0
  deriving Repr, DecidableEq, Inhabited

inductive ScalarKind where
  | string
  | integer
  | float
  | boolean
  | dateTime
  deriving Repr, DecidableEq, Inhabited

/-- A scalar: its value, its spelling and the text around it. -/
structure Scalar where
  kind : ScalarKind
  value : Plain
  /-- The spelling in the source; a new scalar has none. -/
  repr : Option SpanText := none
  decor : Decor := {}
  deriving Inhabited

/-- What an array has besides its elements. -/
structure ArrayForm where
  decor : Decor := {}
  /-- The text after the last element and its comma. -/
  trailing : SpanText := .empty
  /-- Whether the last element is followed by a comma. -/
  trailingComma : Bool := false
  deriving Repr, DecidableEq, Inhabited

/-- What an inline table has besides its entries. -/
structure InlineForm where
  decor : Decor := {}
  /-- The text between the braces of an empty inline table. -/
  preamble : SpanText := .empty
  /-- Whether a dotted key made the inline table. -/
  dotted : Bool := false
  deriving Repr, DecidableEq, Inhabited

/-- What a table has besides its entries. -/
structure TableForm where
  /-- The text before the header and after it. -/
  decor : Decor := {}
  /-- Whether only longer headers or dotted keys imply the table. -/
  implicit : Bool := false
  /-- Whether a dotted key made the table. -/
  dotted : Bool := false
  /-- The place of the header among the lines of the document. -/
  position : Option Int := none
  /-- The key path of the header, as written. -/
  headerKeys : Option (List Key) := none
  newline : Option String := none
  deriving Repr, DecidableEq, Inhabited

/-- One member of a table. -/
structure Entry (α : Type) where
  key : Key
  item : α
  /-- The leading segments of a dotted key, as written on the line. -/
  dottedPath : Option (List Key) := none
  /-- The place of the line among the lines of the document. -/
  position : Option Int := none
  newline : Option String := none
  deriving Inhabited

/-- The tree of a document. -/
inductive Item where
  | scalar (info : Info) (form : Scalar)
  | array (info : Info) (form : ArrayForm) (values : List Item)
  /-- A table written as a value. -/
  | inlineTable (info : Info) (form : InlineForm) (entries : List (Entry Item))
  /-- A table of its own. -/
  | table (info : Info) (form : TableForm) (entries : List (Entry Item))
  /-- The tables of one double-bracketed header. -/
  | arrayOfTables (info : Info) (tables : List Item)
  deriving Inhabited

/-- Data in which items may stand. -/
abbrev Input := Data Item

namespace ScalarKind

def typeName : ScalarKind → String
  | .string => "string"
  | .integer => "integer"
  | .float => "float"
  | .boolean => "boolean"
  | .dateTime => "datetime"

def className : ScalarKind → String
  | .string => "String"
  | .integer => "Integer"
  | .float => "Float"
  | .boolean => "Boolean"
  | .dateTime => "DateTime"

end ScalarKind

namespace Entry

/-- The name under which an entry is found. -/
def name {α : Type} (e : Entry α) : String := e.key.name

end Entry

namespace Item

def typeName : Item → String
  | .scalar _ s => s.kind.typeName
  | .array .. => "array"
  | .inlineTable .. => "inline table"
  | .table .. => "table"
  | .arrayOfTables .. => "array of tables"

def className : Item → String
  | .scalar _ s => s.kind.className
  | .array .. => "Array"
  | .inlineTable .. => "InlineTable"
  | .table .. => "Table"
  | .arrayOfTables .. => "ArrayOfTables"

/-- Whether an item can stand where a value is allowed. -/
def isValue : Item → Bool
  | .scalar .. | .array .. | .inlineTable .. => true
  | .table .. | .arrayOfTables .. => false

def isTable : Item → Bool
  | .table .. => true
  | _ => false

def isArrayOfTables : Item → Bool
  | .arrayOfTables .. => true
  | _ => false

def isInlineTable : Item → Bool
  | .inlineTable .. => true
  | _ => false

def isArray : Item → Bool
  | .array .. => true
  | _ => false

/-- Whether an item holds named entries. -/
def isMapping : Item → Bool
  | .table .. | .inlineTable .. => true
  | _ => false

def info : Item → Info
  | .scalar i _ | .array i .. | .inlineTable i .. | .table i .. | .arrayOfTables i _ => i

/-- The item with other things to remember. -/
def withInfo (i : Info) : Item → Item
  | .scalar _ s => .scalar i s
  | .array _ f vs => .array i f vs
  | .inlineTable _ f es => .inlineTable i f es
  | .table _ f es => .table i f es
  | .arrayOfTables _ ts => .arrayOfTables i ts

def frozen (x : Item) : Bool := x.info.frozen

def span (x : Item) : Option Span := x.info.span

/-- The text around an item; an array of tables has none. -/
def decor? : Item → Option Decor
  | .scalar _ s => some s.decor
  | .array _ f _ => some f.decor
  | .inlineTable _ f _ => some f.decor
  | .table _ f _ => some f.decor
  | .arrayOfTables .. => none

def withDecor (d : Decor) : Item → Item
  | .scalar i s => .scalar i { s with decor := d }
  | .array i f vs => .array i { f with decor := d } vs
  | .inlineTable i f es => .inlineTable i { f with decor := d } es
  | .table i f es => .table i { f with decor := d } es
  | .arrayOfTables i ts => .arrayOfTables i ts

/-- Whether a dotted key made the item. -/
def isDotted : Item → Bool
  | .table _ f _ => f.dotted
  | .inlineTable _ f _ => f.dotted
  | _ => false

/-- An empty table, as a document begins with. -/
def emptyRoot : Item := .table {} { position := some 0 } []

/-! ## Members of tables -/

def entries : Item → List (Entry Item)
  | .table _ _ es => es
  | .inlineTable _ _ es => es
  | _ => []

def withEntries (es : List (Entry Item)) : Item → Item
  | .table i f _ => .table i f es
  | .inlineTable i f _ => .inlineTable i f es
  | x => x

def keys (x : Item) : List String := x.entries.map Entry.name

def findNamed? (name : String) (es : List (Entry Item)) : Option (Entry Item) :=
  es.find? fun e => e.name == name

def entryNamed? (x : Item) (name : String) : Option (Entry Item) := findNamed? name x.entries

def get? (x : Item) (name : String) : Option Item := (x.entryNamed? name).map Entry.item

def updateEntry (name : String) (f : Entry Item → Entry Item) (es : List (Entry Item)) : List (Entry Item) :=
  es.map fun e => if e.name == name then f e else e

def eraseEntry (name : String) (es : List (Entry Item)) : List (Entry Item) :=
  es.filter fun e => e.name != name

/-! ## Data -/

mutual

/-- The data of an item, without the text it was written with. -/
def unwrap : Item → Plain
  | .scalar _ s => s.value
  | .array _ _ vs => .list (unwrapEach vs)
  | .inlineTable _ _ es => .table (unwrapFields es)
  | .table _ _ es => .table (unwrapFields es)
  | .arrayOfTables _ ts => .list (unwrapEach ts)

def unwrapEach : List Item → List Plain
  | [] => []
  | x :: xs => unwrap x :: unwrapEach xs

def unwrapFields : List (Entry Item) → List (String × Plain)
  | [] => []
  | ⟨k, x, _, _, _⟩ :: es => (k.name, unwrap x) :: unwrapFields es

end

/-! ## Read-only trees -/

mutual

/-- The item and all items below it, marked as read-only or editable. -/
def freeze (b : Bool) : Item → Item
  | .scalar i s => .scalar { i with frozen := b } s
  | .array i f vs => .array { i with frozen := b } f (freezeEach b vs)
  | .inlineTable i f es => .inlineTable { i with frozen := b } f (freezeEntries b es)
  | .table i f es => .table { i with frozen := b } f (freezeEntries b es)
  | .arrayOfTables i ts => .arrayOfTables { i with frozen := b } (freezeEach b ts)

def freezeEach (b : Bool) : List Item → List Item
  | [] => []
  | x :: xs => freeze b x :: freezeEach b xs

def freezeEntries (b : Bool) : List (Entry Item) → List (Entry Item)
  | [] => []
  | ⟨k, x, p, n, l⟩ :: es => ⟨k, freeze b x, p, n, l⟩ :: freezeEntries b es

end

mutual

/-- An editable copy: the same tree, of which a workspace knows nothing yet. -/
def copied : Item → Item
  | .scalar i s => .scalar ⟨i.span, false, 0⟩ s
  | .array i f vs => .array ⟨i.span, false, 0⟩ f (copiedEach vs)
  | .inlineTable i f es => .inlineTable ⟨i.span, false, 0⟩ f (copiedEntries es)
  | .table i f es => .table ⟨i.span, false, 0⟩ f (copiedEntries es)
  | .arrayOfTables i ts => .arrayOfTables ⟨i.span, false, 0⟩ (copiedEach ts)

def copiedEach : List Item → List Item
  | [] => []
  | x :: xs => copied x :: copiedEach xs

def copiedEntries : List (Entry Item) → List (Entry Item)
  | [] => []
  | ⟨k, x, p, n, l⟩ :: es => ⟨k, copied x, p, n, l⟩ :: copiedEntries es

end

/-! ## Displayed forms -/

def numberShown : Option Int → String
  | none => "None"
  | some n => toString n

def shown? : Item → Option String
  | .table _ f es =>
    some ("Table(" ++ Text.quotedList (es.map Entry.name) ++ ", position=" ++ numberShown f.position ++ ")")
  | .inlineTable _ _ es => some ("InlineTable(" ++ Text.quotedList (es.map Entry.name) ++ ")")
  | _ => none

end Item

end Verbatim
