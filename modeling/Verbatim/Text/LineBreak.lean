/-!
# Lines of a text

Two notions of a line occur. A *terminated* line ends at a line feed only. A *displayed* line ends at any
character that breaks a line on a screen, and a carriage return followed by a line feed is one break.
-/

namespace Verbatim.Text

/-- Characters that end a displayed line. -/
def isLineBreak (c : Char) : Bool :=
  c == '\n' || c == '\r' || c == '\x0b' || c == '\x0c' || c == '\x1c' || c == '\x1d' || c == '\x1e' ||
    c == '\u0085' || c == '\u2028' || c == '\u2029'

/-- The displayed lines of a text whose current line began with `line`, in reverse. A last line without a break
counts only if it is not empty. -/
def splitLinesFrom (line : List Char) : List Char → List (List Char)
  | [] => if line.isEmpty then [] else [line.reverse]
  | '\r' :: '\n' :: rest => line.reverse :: splitLinesFrom [] rest
  | c :: rest =>
    if isLineBreak c then line.reverse :: splitLinesFrom [] rest else splitLinesFrom (c :: line) rest

def splitLines (text : List Char) : List (List Char) := splitLinesFrom [] text

/-- The pieces of a text between line feeds; there is one more than there are line feeds. -/
def splitAtNewline : List Char → List (List Char)
  | [] => [[]]
  | c :: rest =>
    if c = '\n' then [] :: splitAtNewline rest
    else
      match splitAtNewline rest with
      | [] => [[c]]
      | line :: lines => (c :: line) :: lines

def dropTrailingReturns (text : List Char) : List Char :=
  (text.reverse.dropWhile (· == '\r')).reverse

/-- A text in which every carriage return before a line feed is left out. -/
def joinReturns : List Char → List Char
  | [] => []
  | '\r' :: '\n' :: rest => '\n' :: joinReturns rest
  | c :: rest => c :: joinReturns rest

end Verbatim.Text
