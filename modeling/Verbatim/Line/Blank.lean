import Verbatim.Line.Basic

/-!
# Blanks, comments and line terminators

## Main definitions

- `Cursor.skipBlanks`, `Cursor.skipComment` - blanks and a comment within a line.
- `Cursor.skipTrivia` - blanks, comments and line terminators.
- `lineEnd` - the terminator of a line, which is empty at the end of the text.
-/

namespace Verbatim

/-- The number of characters of a comment: up to the line terminator. -/
def commentLength (text : List Char) : Nat :=
  let body := text.takeWhile (· != '\n')
  if body.length < text.length && body.getLast? == some '\r' then body.length - 1 else body.length

/-- The number of characters of blanks, comments and line terminators at the head of a text. -/
def triviaLength (inComment : Bool) : List Char → Nat
  | [] => 0
  | '\r' :: '\n' :: rest => triviaLength false rest + 2
  | c :: rest =>
    if inComment then triviaLength (c != '\n') rest + 1
    else if DataReader.isBlankOrNewline c then triviaLength false rest + 1
    else if c = '#' then triviaLength true rest + 1
    else 0

namespace Cursor

def skipBlanks (c : Cursor) : Cursor := c.skipWhile DataReader.isBlank

def skipComment (c : Cursor) : Cursor :=
  if c.startsWith ['#'] then c.drop (commentLength c.rest) else c

/-- The cursor behind blanks, comments and line terminators. -/
def skipTrivia (c : Cursor) : Cursor := c.drop (triviaLength false c.rest)

end Cursor

/-- The terminator of a line; at the end of the text it is empty. -/
def lineEnd (behind : String) (c : Cursor) : Scanned String :=
  match c.rest with
  | [] => .ok ("", c)
  | '\n' :: _ => .ok ("\n", c.next)
  | '\r' :: '\n' :: _ => .ok ("\r\n", c.drop 2)
  | x :: _ => (SyntaxCause.expectedNewline behind x).at c.pos

/-- A character that must come. -/
def expectChar (x : Char) (what : String) (c : Cursor) : Except SyntaxFault Cursor :=
  if c.peek? = some x then .ok c.next else (SyntaxCause.expected what c.peek?).at c.pos

end Verbatim
