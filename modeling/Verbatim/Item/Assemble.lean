import Verbatim.Line.Scan

/-!
# From lines to a tree

A header line opens the table that the following entry lines belong to. Headers make the tables on their path, and dotted
keys make theirs below the open table.
-/

namespace Verbatim

/-- A table that longer headers imply. -/
def impliedTable : Item := .table {} { implicit := true } []

/-- A table made by a dotted key. -/
def dottedTable : Item := .table {} { implicit := true, dotted := true } []

/-- The table of a header, with the entries it had when only longer headers implied it. -/
def Header.table (h : Header) (es : List (Entry Item)) : Item :=
  .table { span := some h.span }
    { decor := h.decor, position := some h.number, headerKeys := some h.keys, newline := some h.newline } es

/-- The entries of a table with the table of a header added under its last key. -/
def placeHeader (h : Header) (es : List (Entry Item)) : Except SyntaxCause (List (Entry Item)) :=
  let name := h.leaf.name
  if h.isArray then
    match Item.findNamed? name es with
    | none =>
      let info : Info := { span := some ⟨h.span.start, h.span.start + 2⟩ }
      .ok (es ++ [{ key := h.leaf.bare, item := .arrayOfTables info [h.table []] }])
    | some e =>
      match e.item with
      | .arrayOfTables i ts =>
        .ok (Item.updateEntry name (fun e => { e with item := .arrayOfTables i (ts ++ [h.table []]) }) es)
      | _ => .error (.notArrayOfTables name)
  else
    match Item.findNamed? name es with
    | none => .ok (es ++ [{ key := h.leaf.bare, item := h.table [] }])
    | some e =>
      match e.item with
      | .table _ f sub =>
        -- a header for a table that longer headers have implied so far
        if f.implicit && !f.dotted then
          .ok (Item.updateEntry name (fun e => { e with item := h.table sub }) es)
        else .error (.definedTwice (h.keys.map Key.name))
      | _ => .error (.definedTwice (h.keys.map Key.name))

/-- The entries with the table of a header added at the end of a key path. The way leads through tables and through the last
table of an array of tables; where nothing stands an implied table is made. -/
def attachHeader (h : Header) : List Key → List (Entry Item) → Except SyntaxCause (List (Entry Item))
  | [], es => placeHeader h es
  | k :: ks, es =>
    match Item.findNamed? k.name es with
    | none =>
      match attachHeader h ks [] with
      | .error e => .error e
      | .ok sub => .ok (es ++ [{ key := k.bare, item := impliedTable.withEntries sub }])
    | some e =>
      match e.item with
      | .table i f sub =>
        match attachHeader h ks sub with
        | .error e => .error e
        | .ok sub' => .ok (Item.updateEntry k.name (fun e => { e with item := .table i f sub' }) es)
      | .arrayOfTables i ts =>
        match ts.getLast? with
        | some (.table j f sub) =>
          match attachHeader h ks sub with
          | .error e => .error e
          | .ok sub' =>
            .ok (Item.updateEntry k.name
              (fun e => { e with item := .arrayOfTables i (ts.dropLast ++ [.table j f sub']) }) es)
        | _ => .error (.alreadyDefined k.name e.item.typeName)
      | _ => .error (.alreadyDefined k.name e.item.typeName)

def EntryLine.entry (l : EntryLine) : Entry Item :=
  { key := l.leaf, item := l.value, dottedPath := dottedPathOf l.path, position := some l.number,
    newline := some l.newline }

/-- The entries with the entry of a line added to the open table, which is found by its path of names. -/
def attachEntry (l : EntryLine) : List String → List (Entry Item) → Except SyntaxCause (List (Entry Item))
  | [], es => insertDotted dottedTable l.entry l.path es
  | name :: names, es =>
    match Item.findNamed? name es with
    | none => .ok es
    | some e =>
      match e.item with
      | .table i f sub =>
        match attachEntry l names sub with
        | .error e => .error e
        | .ok sub' => .ok (Item.updateEntry name (fun e => { e with item := .table i f sub' }) es)
      | .arrayOfTables i ts =>
        match ts.getLast? with
        | some (.table j f sub) =>
          match attachEntry l names sub with
          | .error e => .error e
          | .ok sub' =>
            .ok (Item.updateEntry name
              (fun e => { e with item := .arrayOfTables i (ts.dropLast ++ [.table j f sub']) }) es)
        | _ => .ok es
      | _ => .ok es

/-- A tree under construction: the entries of the root and the path of the open table. -/
structure Assembly where
  entries : List (Entry Item) := []
  current : List String := []

def Assembly.add (a : Assembly) : Line → Except SyntaxFault Assembly
  | .header h =>
    match attachHeader h h.path a.entries with
    | .error cause => cause.at h.span.start
    | .ok es => .ok ⟨es, h.keys.map Key.name⟩
  | .entry l =>
    match attachEntry l a.current a.entries with
    | .error cause => cause.at l.offset
    | .ok es => .ok { a with entries := es }

def Assembly.addAll (a : Assembly) : List Line → Except SyntaxFault Assembly
  | [] => .ok a
  | l :: ls =>
    match a.add l with
    | .error f => .error f
    | .ok a' => a'.addAll ls

def assemble (ls : List Line) : Except SyntaxFault Item :=
  match ({} : Assembly).addAll ls with
  | .error f => .error f
  | .ok a => .ok (Item.emptyRoot.withEntries a.entries)

/-- The tree of a text and the text behind its last line. A fault in putting lines together comes before a fault in a later
line. -/
def readTree (limit : Nat) (source : List Char) : Except SyntaxFault (Item × SpanText) :=
  let (ls, last) := sourceLines limit source
  match assemble ls with
  | .error f => .error f
  | .ok root =>
    match last with
    | .error f => .error f
    | .ok trailing => .ok (root, trailing)

end Verbatim
