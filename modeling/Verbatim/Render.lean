import Verbatim.Item.Basic
import Verbatim.Literal
import Verbatim.Options

/-!
# Writing a tree

A tree is written as lines: recorded text as it is, everything else with defaults. Tables come in the order of their
positions; a table without one stays behind the table written before it. Within a table the entry lines, dotted ones
included, are ordered the same way.
-/

namespace Verbatim

inductive RenderError where
  | unresolved (e : SpanError)
  | notDocument (className : String)
  | notValue (className : String)
  | literal (e : LiteralError)
  deriving Repr, DecidableEq

def RenderError.message : RenderError → String
  | .unresolved e => "Cannot render detached text: " ++ e.message
  | .notDocument name => "Cannot render " ++ name ++ " as TOML"
  | .notValue name => "Cannot render value of type " ++ name
  | .literal e => e.message

namespace Render

abbrev Rendered := Except RenderError String

/-- Span text, or a default where none is set. -/
def optionalText (source : Option (List Char)) (default : String) : Option SpanText → Rendered
  | none => .ok default
  | some t =>
    match t.resolve source with
    | .ok s => .ok s
    | .error e => .error (.unresolved e)

/-- Two pieces one after the other; the first error counts. -/
def join (a b : Rendered) : Rendered :=
  match a with
  | .error e => .error e
  | .ok s =>
    match b with
    | .error e => .error e
    | .ok t => .ok (s ++ t)

def joinAll : List Rendered → Rendered
  | [] => .ok ""
  | a :: as => join a (joinAll as)

/-! ## Keys -/

/-- A key as it was spelled, or in the form for new keys. -/
def keyRepr (source : Option (List Char)) (k : Key) : Rendered :=
  match k.repr with
  | some t => optionalText source "" (some t)
  | none => .ok (Literal.key k.name)

def keyText (source : Option (List Char)) (before after : String) (k : Key) : Rendered :=
  joinAll [optionalText source before k.decor.before, keyRepr source k, optionalText source after k.decor.after]

/-- A key path; the defaults hold before its first and behind its last segment. -/
def keyPathText (source : Option (List Char)) (before after : String) : List Key → Rendered
  | [] => .ok ""
  | [k] => keyText source before after k
  | k :: ks => joinAll [keyText source before "" k, .ok ".", keyPathText source "" after ks]

/-! ## Entry lines and values -/

/-- An entry line: its key path, its value and its terminator. -/
structure BodyLine where
  keys : List Key
  decor : Decor
  repr : Rendered
  newline : Option String

/-- Lines in the order of their positions; lines of one position keep their order. -/
def byPosition {α : Type} (xs : List (Int × α)) : List α :=
  (xs.mergeSort fun a b => a.1 ≤ b.1).map Prod.snd

/-- The key path of an entry: as written on its line, or through the dotted tables that lead to it. -/
def entryKeys (path : List Key) (dottedPath : Option (List Key)) (k : Key) : List Key :=
  dottedPath.getD path ++ [k]

def BodyLine.valueText (source : Option (List Char)) (before after : String) (l : BodyLine) : Rendered :=
  joinAll [optionalText source before l.decor.before, l.repr, optionalText source after l.decor.after]

/-- The entries of an inline table in one line; only the last one gets a blank behind it. -/
def inlineParts (source : Option (List Char)) : List BodyLine → List Rendered
  | [] => []
  | [l] => [joinAll [keyPathText source " " " " l.keys, .ok "=", l.valueText source " " " "]]
  | l :: ls =>
    joinAll [keyPathText source " " " " l.keys, .ok "=", l.valueText source " " "", .ok ","] :: inlineParts source ls

/-- An inline table with its entries. -/
def inlineText (source : Option (List Char)) (preamble : SpanText) (ls : List BodyLine) : Rendered :=
  match ls with
  | [] => joinAll [.ok "\x7b", optionalText source "" (some preamble), .ok "\x7d"]
  | ls => joinAll [.ok "\x7b", joinAll (inlineParts source ls), .ok "\x7d"]

mutual

/-- A value as it stands behind an equals sign, without the text around it. -/
def valueRepr (source : Option (List Char)) : Item → Rendered
  | .scalar _ s =>
    match s.repr with
    | some t => optionalText source "" (some t)
    | none =>
      match Literal.ofPlain s.value with
      | .ok text => .ok text
      | .error e => .error (.literal e)
  | .array _ f vs =>
    joinAll [.ok "[", joinAll (elementTexts source true vs),
      .ok (if f.trailingComma && !vs.isEmpty then "," else ""), optionalText source "" (some f.trailing), .ok "]"]
  | .inlineTable _ f es => inlineText source f.preamble (byPosition (bodyLines source [] 0 es).1)
  | .table .. => .error (.notValue "Table")
  | .arrayOfTables .. => .error (.notValue "ArrayOfTables")

/-- The elements of an array with the commas between them; a new element gets a blank before it unless it is the first. -/
def elementTexts (source : Option (List Char)) (first : Bool) : List Item → List Rendered
  | [] => []
  | x :: xs =>
    let decor := x.decor?.getD {}
    joinAll [.ok (if first then "" else ","), optionalText source (if first then "" else " ") decor.before,
      valueRepr source x, optionalText source "" decor.after] :: elementTexts source false xs

/-- The entry lines of a table with their positions, in the order of the tree, and the position met last. Dotted tables are
entered, other tables are not. -/
def bodyLines (source : Option (List Char)) (path : List Key) (last : Int) :
    List (Entry Item) → List (Int × BodyLine) × Int
  | [] => ([], last)
  | ⟨k, x, p, n, l⟩ :: es =>
    let line (decor : Decor) : List (Int × BodyLine) × Int :=
      ([(n.getD last, ⟨entryKeys path p k, decor, valueRepr source x, l⟩)], n.getD last)
    let (own, last) :=
      match x with
      -- the entries of a dotted table stand in the body of the table around it
      | .table _ f sub => if f.dotted then bodyLines source (path ++ [k]) last sub else ([], last)
      | .arrayOfTables .. => ([], last)
      | .inlineTable _ f sub => if f.dotted then bodyLines source (path ++ [k]) last sub else line f.decor
      | .array _ f _ => line f.decor
      | .scalar _ s => line s.decor
    let (rest, last) := bodyLines source path last es
    (own ++ rest, last)

end

/-! ## Tables -/

/-- A table of a tree, with the keys that lead to it. -/
structure Section where
  form : TableForm
  entries : List (Entry Item)
  path : List Key
  isArray : Bool
  isRoot : Bool

mutual

/-- The tables of a tree with their positions, and the position met last. The path leads to the item. -/
def sections (path : List Key) (isArray isRoot : Bool) (last : Int) : Item → List (Int × Section) × Int
  | .table _ f es =>
    -- a new table follows the one that was met before it
    let here := f.position.getD last
    let (below, last) := entrySections path here es
    ((here, ⟨f, es, path, isArray, isRoot⟩) :: below, last)
  | .arrayOfTables _ ts => elementSections path last ts
  | .scalar .. | .array .. | .inlineTable .. => ([], last)

def entrySections (path : List Key) (last : Int) : List (Entry Item) → List (Int × Section) × Int
  | [] => ([], last)
  | ⟨k, x, _, _, _⟩ :: es =>
    let (own, last) := sections (path ++ [k]) false false last x
    let (rest, last) := entrySections path last es
    (own ++ rest, last)

def elementSections (path : List Key) (last : Int) : List Item → List (Int × Section) × Int
  | [] => ([], last)
  | x :: xs =>
    let (own, last) := sections path true false last x
    let (rest, last) := elementSections path last xs
    (own ++ rest, last)

end

/-- Whether an entry makes an entry line in the body of its table. -/
def hasBodyLine (e : Entry Item) : Bool := e.item.isValue || (e.item.isTable && e.item.isDotted)

/-- Whether a table has a header line. A table that is only implied gets one once it holds entry lines. -/
def Section.hasHeader (s : Section) : Bool :=
  !s.form.dotted && (!s.form.implicit || s.entries.any hasBodyLine)

/-! ## Lines -/

inductive WrittenLine where
  | header (s : Section)
  | body (l : BodyLine)

/-- The lines of one table: its header if it has one, then its entry lines. A dotted table has none of its own. -/
def sectionLines (source : Option (List Char)) (s : Section) : List WrittenLine :=
  let body := (byPosition (bodyLines source [] 0 s.entries).1).map WrittenLine.body
  if s.isRoot then body
  else if s.hasHeader then .header s :: body
  else []

/-- All lines of a tree in the order of writing. -/
def writtenLines (source : Option (List Char)) (root : Item) : List WrittenLine :=
  (byPosition (sections [] false true 0 root).1).flatMap (sectionLines source)

/-- The text of a line without its terminator. -/
def WrittenLine.text (source : Option (List Char)) (layout : Layout) (isFirst : Bool) : WrittenLine → Rendered
  | .header s =>
    joinAll [optionalText source (if isFirst then "" else layout.separator) s.form.decor.before,
      .ok (if s.isArray then "[[" else "["),
      keyPathText source "" "" (s.form.headerKeys.getD s.path),
      .ok (if s.isArray then "]]" else "]"),
      optionalText source "" s.form.decor.after]
  | .body l => joinAll [keyPathText source "" " " l.keys, .ok "=", l.valueText source " " ""]

def WrittenLine.newline : WrittenLine → Option String
  | .header s => s.form.newline
  | .body l => l.newline

/-- The text of lines. A line that follows an unterminated one begins with a terminator. -/
def linesText (source : Option (List Char)) (layout : Layout) (isFirst unterminated : Bool) :
    List WrittenLine → Except RenderError (String × Bool)
  | [] => .ok ("", unterminated)
  | l :: ls =>
    match l.text source layout isFirst with
    | .error e => .error e
    | .ok text =>
      let newline := l.newline.getD layout.newline
      -- an empty terminator means that the file ended there, so the next line brings one along
      match linesText source layout false (newline == "") ls with
      | .error e => .error e
      | .ok (rest, open?) => .ok ((if unterminated then layout.newline else "") ++ text ++ newline ++ rest, open?)

/-- The text of a tree and of what follows its last line. -/
def renderTree (layout : Layout) (source : Option (List Char)) (root : Item) (trailing : Option SpanText) : Rendered :=
  match linesText source layout true false (writtenLines source root) with
  | .error e => .error e
  | .ok (text, unterminated) =>
    match optionalText source "" trailing with
    | .error e => .error e
    | .ok tail =>
      .ok (text ++ (if unterminated && tail != "" then layout.newline else "") ++ tail)

/-- The text of a table on its own, written as a document of its own. -/
def renderTable (layout : Layout) (x : Item) : Rendered :=
  match x with
  | .table .. => renderTree layout none x none
  | x => .error (.notDocument x.className)

end Render

end Verbatim
