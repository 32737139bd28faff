import Verbatim.Line.Value

/-!
# Scanning the lines of a document

## Main definitions

- `headerLine`, `entryLine` - one line.
- `scanLines` - the lines of a text up to the first fault, and the text behind the last line or the fault.
-/

namespace Verbatim

/-- Containers can be opened this many levels deep, whatever limit is chosen. -/
def openLevels : Nat := 500

/-- A header line. The text from `before` on belongs to the header. -/
def headerLine (before : Nat) (s : Numbered) : Except SyntaxFault (Line × Numbered) :=
  let c := s.cursor
  let isArray := c.startsWith ['[', '[']
  let c₁ := c.drop (if isArray then 2 else 1)
  match keySegments c₁.pos c₁ with
  | .error f => .error f
  | .ok ((path, leaf), c₂) =>
    match expectChar ']' "']' to close the table header" c₂ with
    | .error f => .error f
    | .ok c₃ =>
      match (if isArray then expectChar ']' "']]' to close the array of tables header" c₃ else .ok c₃) with
      | .error f => .error f
      | .ok c₄ =>
        let c₅ := c₄.skipBlanks.skipComment
        match lineEnd "the table header" c₅ with
        | .error f => .error f
        | .ok (newline, c₆) =>
          let number := s.number + 1
          let decor : Decor := ⟨some (.between before c.pos), some (.between c₄.pos c₅.pos)⟩
          .ok (.header { path, leaf, isArray, decor, newline, number, span := ⟨c.pos, c₄.pos⟩ }, ⟨c₆, number⟩)

/-- A line with a key path and a value. The text from `before` on belongs to the first key. -/
def entryLine (limit before : Nat) (s : Numbered) : Except SyntaxFault (Line × Numbered) :=
  let c := s.cursor
  match keySegments before c with
  | .error f => .error f
  | .ok ((path, leaf), c₁) =>
    match expectChar '=' "'=' after key" c₁ with
    | .error f => .error f
    | .ok c₂ =>
      match decoratedValue (valueItem limit openLevels 0) { s with cursor := c₂ } with
      | .error f => .error f
      | .ok (v, s₃) =>
        let c₃ := s₃.cursor
        let c₄ := c₃.skipBlanks.skipComment
        match lineEnd "a value" c₄ with
        | .error f => .error f
        | .ok (newline, c₅) =>
          -- the line is numbered behind the entries of inline tables in it
          let number := s₃.number + 1
          let value := withAfter (.between c₃.pos c₄.pos) v
          .ok (.entry { path, leaf, value, newline, number, offset := c.pos }, ⟨c₅, number⟩)

/-- The lines from a place on up to the first fault, then what follows the last line, or the fault. -/
def scanLines (limit : Nat) (s : Numbered) : List Line × Except SyntaxFault SpanText :=
  let c := s.cursor.skipTrivia
  if c.atEnd then ([], .ok (.between s.cursor.pos c.pos))
  else
    let here : Numbered := { s with cursor := c }
    let line := if c.startsWith ['['] then headerLine s.cursor.pos here else entryLine limit s.cursor.pos here
    match line with
    | .error f => ([], .error f)
    | .ok (l, s') =>
      if s'.cursor.rest.length < s.cursor.rest.length then
        let (ls, last) := scanLines limit s'
        (l :: ls, last)
      else ([l], SyntaxCause.expectedValue.at s'.cursor.pos)
termination_by s.cursor.rest.length

def sourceLines (limit : Nat) (source : List Char) : List Line × Except SyntaxFault SpanText :=
  scanLines limit ⟨.start source, 0⟩

end Verbatim
