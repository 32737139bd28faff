import Verbatim.Text.DecimalDigit

/-!
# Place marks in messages

A message can carry marks of the form `(at line 3, column 5)`. Taking them out leaves the bare message, and the first one
tells the place.
-/

namespace Verbatim.Text

/-- A decimal number of any script at the head of a text. -/
def numberAt? (text : List Char) : Option (Nat × List Char) :=
  let digits := text.takeWhile isDecimalDigit
  if digits.isEmpty then none
  else some (digits.foldl (fun n c => n * 10 + (digitValue? c).getD 0) 0, text.dropWhile isDecimalDigit)

def afterText? (fixed text : List Char) : Option (List Char) :=
  if fixed.isPrefixOf text then some (text.drop fixed.length) else none

/-- The place of a mark at the head of a text, and the text behind it. -/
def markAt? (text : List Char) : Option ((Nat × Nat) × List Char) := do
  let rest ← afterText? "(at line ".toList text
  let (line, rest) ← numberAt? rest
  let rest ← afterText? ", column ".toList rest
  let (column, rest) ← numberAt? rest
  let rest ← afterText? ")".toList rest
  some ((line, column), rest)

/-- The place of the first mark of a text. -/
def firstMark? : List Char → Option (Nat × Nat)
  | [] => none
  | c :: rest =>
    match markAt? (c :: rest) with
    | some (place, _) => some place
    | none => firstMark? rest

/-- The text without its marks; the first number says how many characters still belong to a mark. -/
def withoutMarksFrom : Nat → List Char → List Char
  | _, [] => []
  | skip + 1, _ :: rest => withoutMarksFrom skip rest
  | 0, c :: rest =>
    match markAt? (c :: rest) with
    | some (_, behind) => withoutMarksFrom (rest.length - behind.length) rest
    | none => c :: withoutMarksFrom 0 rest

def withoutMarks (text : List Char) : List Char := withoutMarksFrom 0 text

end Verbatim.Text
