import Verbatim.DataReader.Values

/-!
# Reading a document for its data

A document is a sequence of statements: key paths with values, and headers that open a table or append one to an array of
tables. Line terminators may be line feeds alone or preceded by a carriage return.
-/

namespace Verbatim.DataReader

/-- Values may nest this many levels deep. -/
def nestingLevels : Nat := 500

structure Reading where
  data : Fields := []
  marks : Marks := .blank
  /-- Paths that count as declared from the next header on. -/
  pending : List (List String) := []
  /-- The path of the open table. -/
  header : List String := []

/-- The paths of the tables that a dotted key makes, outermost first. -/
def dottedParents (header path : List String) : List (List String) :=
  (List.range (path.length - 1)).map fun i => header ++ path.take (i + 1)

/-- A key path with its value, put below the open table. -/
def keyValueStatement (s : Reading) (c : Cursor) : Step Reading :=
  match keyValue (value nestingLevels) c with
  | .error f => .error f
  | .ok ((path, v), d) =>
    let parents := dottedParents s.header path
    let parent := s.header ++ path.dropLast
    match parents.find? (s.marks.isDeclared ·) with
    | some p => fail (.redefined p) d
    | none =>
      if s.marks.isClosed parent then fail (.immutable parent) d
      else
        match s.data.atPath true (Fields.add? (path.getLastD "") v) parent with
        | none => fail .overwrite d
        | some data =>
          let marks := if isContainer v then s.marks.close (s.header ++ path) else s.marks
          .ok ({ s with data, marks, pending := s.pending ++ parents }, d)

/-- The reading with the pending paths declared. -/
def Reading.settle (s : Reading) : Reading :=
  { s with marks := s.pending.foldl (fun m p => m.declare p) s.marks, pending := [] }

/-- A header that opens a table. -/
def tableStatement (s : Reading) (c : Cursor) : Step Reading :=
  match keyPath (c.next.skipWhile isBlank) with
  | .error f => .error f
  | .ok (path, d) =>
    if s.marks.isDeclared path || s.marks.isClosed path then fail (.declaredTwice path) d
    else
      match s.data.atPath true some path with
      | none => fail .overwrite d
      | some data =>
        if d.startsWith [']'] then .ok ({ s with data, marks := s.marks.declare path, header := path }, d.next)
        else fail .expectedTableClose d

/-- A header that appends a table to an array of tables. -/
def arrayStatement (s : Reading) (c : Cursor) : Step Reading :=
  match keyPath ((c.drop 2).skipWhile isBlank) with
  | .error f => .error f
  | .ok (path, d) =>
    if s.marks.isClosed path then fail (.immutable path) d
    else
      match s.data.atPath true (Fields.grow? (path.getLastD "")) path.dropLast with
      | none => fail .overwrite d
      | some data =>
        if d.startsWith [']', ']'] then
          .ok ({ s with data, marks := (s.marks.forget path).declare path, header := path }, d.drop 2)
        else fail .expectedArrayClose d

/-- One statement, beginning at its first character, or nothing before a comment. -/
def statement (s : Reading) (c : Cursor) : Step Reading :=
  match c.rest with
  | [] => .ok (s, c)
  | x :: _ =>
    if isBareKeyChar x || x == '"' || x == '\'' then keyValueStatement s c
    else if x = '[' then
      if c.next.startsWith ['['] then arrayStatement s.settle c else tableStatement s.settle c
    else if x = '#' then .ok (s, c)
    else fail .invalidStatement c

/-- The statements from a cursor to the end of the text. -/
def statements (s : Reading) (c : Cursor) : Except Fault Reading :=
  let c₁ := c.skipWhile isBlank
  match c₁.rest with
  | [] => .ok s
  | '\n' :: _ =>
    if c₁.next.rest.length < c.rest.length then statements s c₁.next else fail .expectedLineEnd c₁
  | _ =>
    match statement s c₁ with
    | .error f => .error f
    | .ok (s', c₂) =>
      match skipComment (c₂.skipWhile isBlank) with
      | .error f => .error f
      | .ok c₃ =>
        match c₃.rest with
        | [] => .ok s'
        | '\n' :: _ =>
          if c₃.next.rest.length < c.rest.length then statements s' c₃.next else fail .expectedLineEnd c₃
        | _ => fail .expectedLineEnd c₃
termination_by c.rest.length

def readDocument (source : List Char) : Except ReadError Fields :=
  let text := Text.joinReturns source
  match statements {} (.start text) with
  | .error f => .error (.ofFault text f)
  | .ok s => .ok s.data

/-- The value that a text spells. -/
def readScalar (text : List Char) : Except ReadError Plain :=
  match readDocument ("v = ".toList ++ text) with
  | .error e => .error e
  | .ok fields => .ok ((fields.lookup "v").getD .none)

/-- The name that a text spells as a key, if it spells one. -/
def readKey (text : List Char) : Except ReadError (Option String) :=
  match readDocument (text ++ " = 0".toList) with
  | .error e => .error e
  | .ok fields => .ok (fields.head?.map (·.1))

end Verbatim.DataReader
