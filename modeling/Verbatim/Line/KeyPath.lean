import Verbatim.Line.Blank
import Verbatim.DataReader.Document

/-!
# Strings and key paths of a line

## Main definitions

- `stringEnd` - the cursor behind a string of any form.
- `simpleKey` - one segment of a key path.
- `keySegments` - a key path with the text around its segments.
-/

namespace Verbatim

/-! ## Strings -/

/-- The number of characters before the closing mark of a string on one line. With escapes, a backslash hides the next
character. -/
def lineBody (mark : Char) (escapes : Bool) : List Char → Option Nat
  | [] => none
  | c :: rest =>
    if c = '\n' ∨ c = '\r' then none
    else if escapes ∧ c = '\\' then
      -- the hidden character may even be a line feed; decoding refuses it later
      match rest with
      | [] => none
      | _ :: rest' => (lineBody mark escapes rest').map (· + 2)
    else if c = mark then some 0
    else (lineBody mark escapes rest).map (· + 1)

/-- The number of characters before the closing marks of a string of several lines. -/
def multilineBody (mark : Char) (escapes : Bool) : List Char → Option Nat
  | [] => none
  | c :: rest =>
    if escapes ∧ c = '\\' then
      match rest with
      | [] => none
      | _ :: rest' => (multilineBody mark escapes rest').map (· + 2)
    else if [mark, mark, mark].isPrefixOf (c :: rest) then some 0
    else (multilineBody mark escapes rest).map (· + 1)

/-- The cursor behind the string that begins at a quotation mark. A string of several lines ends with three to five
marks. -/
def stringEnd (mark : Char) (c : Cursor) : Except SyntaxFault Cursor :=
  let escapes := mark == '"'
  if c.startsWith [mark, mark, mark] then
    let inside := c.drop 3
    match multilineBody mark escapes inside.rest with
    | none => SyntaxCause.unterminatedMultiline.at c.pos
    | some n =>
      let close := inside.drop n
      -- up to two marks before the closing ones belong to the string
      let marks := close.rest.takeWhile (· == mark)
      if 5 < marks.length then SyntaxCause.tooManyQuotes.at close.pos else .ok (close.drop marks.length)
  else
    let inside := c.next
    match lineBody mark escapes inside.rest with
    | none => SyntaxCause.unterminatedString.at c.pos
    | some n => .ok (inside.drop (n + 1))

/-- The characters between two cursors on one text. -/
def textBetween (c d : Cursor) : List Char := c.rest.take (d.pos - c.pos)

/-! ## Keys -/

def quotedName (mark : Char) (text : List Char) (offset : Nat) : Except SyntaxFault String :=
  if mark = '\'' then .ok (String.ofList text.tail.dropLast)
  else
    match DataReader.readKey text with
    | .ok (some name) => .ok name
    | _ => (SyntaxCause.invalidQuotedKey (String.ofList text)).at offset

/-- One segment of a key path: the name and the cursor behind it. -/
def simpleKey (c : Cursor) : Scanned String :=
  match c.rest with
  | [] => (SyntaxCause.expectedKey none).at c.pos
  | x :: _ =>
    if x = '"' ∨ x = '\'' then
      if c.startsWith [x, x, x] then SyntaxCause.multilineKey.at c.pos
      else
        match stringEnd x c with
        | .error f => .error f
        | .ok d =>
          match quotedName x (textBetween c d) c.pos with
          | .error f => .error f
          | .ok name => .ok (name, d)
    else if isBareKeyChar x then
      .ok (String.ofList (c.rest.takeWhile isBareKeyChar), c.skipWhile isBareKeyChar)
    else (SyntaxCause.expectedKey (some x)).at c.pos

/-- A key path: its leading segments and its last one. The text from `before` on belongs to the first segment. -/
def keySegments (before : Nat) (c : Cursor) : Scanned (List Key × Key) :=
  let c₁ := c.skipBlanks
  match simpleKey c₁ with
  | .error f => .error f
  | .ok (name, c₂) =>
    let c₃ := c₂.skipBlanks
    let decor : Decor := ⟨some (.between before c₁.pos), some (.between c₂.pos c₃.pos)⟩
    let key : Key := ⟨name, some (.between c₁.pos c₂.pos), decor⟩
    if c₃.startsWith ['.'] then
      let c₄ := c₃.next
      -- a segment and its point were read, so less is left
      if c₄.rest.length < c.rest.length then
        match keySegments c₄.pos c₄ with
        | .error f => .error f
        | .ok ((path, leaf), d) => .ok ((key :: path, leaf), d)
      else (SyntaxCause.expectedKey none).at c₄.pos
    else .ok (([], key), c₃)
termination_by c.rest.length

end Verbatim
