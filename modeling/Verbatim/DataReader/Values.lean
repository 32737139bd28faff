import Verbatim.DataReader.KeyPath
import Verbatim.DataReader.Scalars
import Verbatim.DataReader.Namespace

/-!
# Values of a document

Arrays and inline tables hold values; how deep they may nest is a number that every level lowers.
-/

namespace Verbatim.DataReader

/-- The elements of an array from the first one to behind the closing bracket. A comma may follow the last one. -/
def arrayElements (inner : Cursor → Step Plain) (c : Cursor) : Step (List Plain) :=
  match inner c with
  | .error f => .error f
  | .ok (v, c₁) =>
    match skipBlanks c₁ with
    | .error f => .error f
    | .ok c₂ =>
      match c₂.rest with
      | ']' :: _ => .ok ([v], c₂.next)
      | ',' :: _ =>
        match skipBlanks c₂.next with
        | .error f => .error f
        | .ok c₃ =>
          if c₃.startsWith [']'] then .ok ([v], c₃.next)
          else if c₃.rest.length < c.rest.length then
            match arrayElements inner c₃ with
            | .error f => .error f
            | .ok (vs, d) => .ok (v :: vs, d)
          else fail .unclosedArray c₃
      | _ => fail .unclosedArray c₂
termination_by c.rest.length

def array (inner : Cursor → Step Plain) (c : Cursor) : Step Plain :=
  match skipBlanks c.next with
  | .error f => .error f
  | .ok c₁ =>
    if c₁.startsWith [']'] then .ok (.list [], c₁.next)
    else match arrayElements inner c₁ with
      | .error f => .error f
      | .ok (vs, d) => .ok (.list vs, d)

/-- A key path, an equals sign and a value. -/
def keyValue (inner : Cursor → Step Plain) (c : Cursor) : Step (List String × Plain) :=
  match keyPath c with
  | .error f => .error f
  | .ok (path, c₁) =>
    match c₁.rest with
    | '=' :: _ =>
      match inner (c₁.next.skipWhile isBlank) with
      | .error f => .error f
      | .ok (v, d) => .ok ((path, v), d)
    | _ => fail .expectedEquals c₁

/-- Whether a value has members. -/
def isContainer : Plain → Bool
  | .list _ => true
  | .table _ => true
  | _ => false

/-- Adds a value to an inline table behind its key path. -/
def addInline (marks : Marks) (fields : Fields) (path : List String) (v : Plain) (c : Cursor) :
    Except Fault Fields :=
  let stem := path.getLastD ""
  if marks.isClosed path then fail (.immutable path) c
  else
    match fields.atPath false some path.dropLast with
    | none => fail .overwrite c
    | some _ =>
      match fields.atPath false (Fields.add? stem v) path.dropLast with
      | none => fail (.duplicateInlineKey stem) c
      | some fields' => .ok fields'

/-- The entries of an inline table from the first key to behind the closing brace. -/
def inlineEntries (inner : Cursor → Step Plain) (marks : Marks) (fields : Fields) (c : Cursor) : Step Fields :=
  match keyValue inner c with
  | .error f => .error f
  | .ok ((path, v), c₁) =>
    match addInline marks fields path v c₁ with
    | .error f => .error f
    | .ok fields' =>
      let c₂ := c₁.skipWhile isBlank
      match c₂.rest with
      | '\x7d' :: _ => .ok (fields', c₂.next)
      | ',' :: _ =>
        let c₃ := c₂.next.skipWhile isBlank
        let marks' := if isContainer v then marks.close path else marks
        if c₃.rest.length < c.rest.length then inlineEntries inner marks' fields' c₃
        else fail .unclosedInlineTable c₃
      | _ => fail .unclosedInlineTable c₂
termination_by c.rest.length

def inlineTable (inner : Cursor → Step Plain) (c : Cursor) : Step Plain :=
  let c₁ := c.next.skipWhile isBlank
  if c₁.startsWith ['\x7d'] then .ok (.table [], c₁.next)
  else match inlineEntries inner .blank [] c₁ with
    | .error f => .error f
    | .ok (fields, d) => .ok (.table fields, d)

/-- A value whose members are read with the given reader. -/
def valueWith (inner : Cursor → Step Plain) (c : Cursor) : Step Plain :=
  if c.startsWith ['['] then array inner c
  else if c.startsWith ['\x7b'] then inlineTable inner c
  else scalar c

/-- A value in which values nest at most so many levels deep. -/
def value : Nat → Cursor → Step Plain
  | 0 => valueWith (fail .tooDeep)
  | levels + 1 => valueWith (value levels)

end Verbatim.DataReader
