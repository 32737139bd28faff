import Verbatim.DataReader.Basic

/-!
# Strings of a document

The four forms of strings: basic ones with escapes and literal ones without, each on one line or on several.
-/

namespace Verbatim.DataReader

def hexValue? (c : Char) : Option Nat :=
  if '0' ≤ c ∧ c ≤ '9' then some (c.toNat - 48)
  else if 'a' ≤ c ∧ c ≤ 'f' then some (c.toNat - 87)
  else if 'A' ≤ c ∧ c ≤ 'F' then some (c.toNat - 55)
  else none

def hexNumber? (digits : List Char) : Option Nat :=
  digits.foldl (fun n c => do return (← n) * 16 + (← hexValue? c)) (some 0)

/-- Code points that are characters. -/
def isScalarValue (n : Nat) : Bool := n ≤ 55295 || (57344 ≤ n && n ≤ 1114111)

/-- The character that `width` hexadecimal digits name. -/
def hexChar (width : Nat) (c : Cursor) : Step (List Char) :=
  let digits := c.rest.take width
  match hexNumber? digits with
  | some n =>
    if digits.length ≠ width then fail .invalidHex c
    else if isScalarValue n then .ok ([Char.ofNat n], c.drop width)
    else fail .notScalar (c.drop width)
  | none => fail .invalidHex c

/-- The character of an escape of two characters. -/
def simpleEscape? : Char → Option Char
  | 'b' => some '\x08'
  | 't' => some '\t'
  | 'n' => some '\n'
  | 'f' => some '\x0c'
  | 'r' => some '\r'
  | '"' => some '"'
  | '\\' => some '\\'
  | _ => none

/-- A backslash at the end of a line joins the line with what follows the next blanks and line feeds. Only blanks may stand
between the backslash and the line feed. -/
def lineJoin (afterMark : Cursor) (first : Char) : Step (List Char) :=
  if first = '\n' then .ok ([], afterMark.skipWhile isBlankOrNewline)
  else
    let c := afterMark.skipWhile isBlank
    match c.rest with
    | [] => .ok ([], c)
    | '\n' :: _ => .ok ([], c.next.skipWhile isBlankOrNewline)
    | _ => fail .strayBackslash c

/-- One escape, beginning at its backslash. -/
def escape (multiline : Bool) (c : Cursor) : Step (List Char) :=
  let behind := c.drop 2
  match c.next.peek? with
  | none => fail .strayBackslash behind
  | some x =>
    if multiline && isBlankOrNewline x then lineJoin behind x
    else if x = 'u' then hexChar 4 behind
    else if x = 'U' then hexChar 8 behind
    else match simpleEscape? x with
      | some y => .ok ([y], behind)
      | none => fail .strayBackslash behind

/-- A basic string from behind its opening mark to behind its closing one. -/
def basicBody (multiline : Bool) (c : Cursor) : Step (List Char) :=
  match _h : c.rest with
  | [] => fail .unterminatedString c
  | x :: rest =>
    if x = '"' ∧ !multiline then .ok ([], c.next)
    else if x = '"' ∧ c.startsWith ['"', '"', '"'] then .ok ([], c.drop 3)
    else if x = '\\' then
      match escape multiline c with
      | .error f => .error f
      | .ok (piece, c') =>
        if c'.rest.length < c.rest.length then
          match basicBody multiline c' with
          | .error f => .error f
          | .ok (text, d) => .ok (piece ++ text, d)
        else fail .strayBackslash c'
    else if x ≠ '"' ∧ (if multiline then isIllegalInLines x else isIllegalInLine x) then
      fail (.illegalCharacter x) c
    else
      match basicBody multiline ⟨c.pos + 1, rest⟩ with
      | .error f => .error f
      | .ok (text, d) => .ok (x :: text, d)
termination_by c.rest.length
decreasing_by
  · assumption
  · simp [_h]

def basicString (c : Cursor) : Step (List Char) := basicBody false c.next

/-- The text up to a delimiter that must come and may not stand behind a control character. -/
def delimited (delimiter : List Char) (bad : Char → Bool) (c : Cursor) : Step (List Char) :=
  match before? delimiter c.rest with
  | none => fail (.expected (String.ofList delimiter)) (c.drop c.rest.length)
  | some text =>
    match firstBad bad text c with
    | .error f => .error f
    | .ok () => .ok (text, c.drop (text.length + delimiter.length))

def literalString (c : Cursor) : Step (List Char) := delimited ['\''] isIllegalInLine c.next

/-- At most two further marks belong to a string of several lines. -/
def extraMarks (mark : Char) (text : List Char) (c : Cursor) : List Char × Cursor :=
  if c.startsWith [mark] then
    if c.next.startsWith [mark] then (text ++ [mark, mark], c.drop 2) else (text ++ [mark], c.next)
  else (text, c)

/-- A string of several lines; a line feed directly behind its opening does not count. -/
def multilineString (literal : Bool) (c : Cursor) : Step (List Char) :=
  let inside := c.drop 3
  let inside := if inside.startsWith ['\n'] then inside.next else inside
  let mark := if literal then '\'' else '"'
  let body := if literal then delimited ['\'', '\'', '\''] isIllegalInLines inside else basicBody true inside
  match body with
  | .error f => .error f
  | .ok (text, d) => .ok (extraMarks mark text d)

/-- A string of any form, beginning at its first mark. -/
def stringValue (c : Cursor) : Step (List Char) :=
  if c.startsWith ['"'] then
    if c.startsWith ['"', '"', '"'] then multilineString false c else basicString c
  else if c.startsWith ['\'', '\'', '\''] then multilineString true c else literalString c

end Verbatim.DataReader
