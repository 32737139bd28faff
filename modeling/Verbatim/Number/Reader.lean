import Verbatim.Number.Binary64
import Verbatim.Text.Blank
import Verbatim.Text.DecimalDigit

/-!
# Numbers in free text

Numbers as they are given outside of documents: blanks around them do not matter, a single underscore may stand between
two digits, and the digits of any script count.
-/

namespace Verbatim.Number

/-- The digits of a text with single underscores between digits; nothing else may stand there. -/
def digitsWithout? : List Char → Option (List Nat)
  | [] => none
  | [c] => (Text.digitValue? c).map ([·])
  | c :: '_' :: rest =>
    match Text.digitValue? c, digitsWithout? rest with
    | some d, some ds => some (d :: ds)
    | _, _ => none
  | c :: rest =>
    match Text.digitValue? c, digitsWithout? rest with
    | some d, some ds => some (d :: ds)
    | _, _ => none

/-- The number of a sequence of decimal digits. -/
def ofDigits (ds : List Nat) : Nat := ds.foldl (fun n d => n * 10 + d) 0

/-- A sign at the head of a text, and what follows it. -/
def signed : List Char → Bool × List Char
  | '-' :: rest => (true, rest)
  | '+' :: rest => (false, rest)
  | rest => (false, rest)

def integerOf? (s : String) : Option Int :=
  let (negative, rest) := signed (Text.trim s.toList)
  (digitsWithout? rest).map fun ds => if negative then -(ofDigits ds : Int) else ofDigits ds

/-- The digits before a point or an exponent, which may be missing. -/
def optionalDigits? (cs : List Char) : Option (List Nat) := if cs.isEmpty then some [] else digitsWithout? cs

/-- A mantissa as its digits and the number of those behind the point. -/
def mantissa? (cs : List Char) : Option (List Nat × Nat) :=
  let whole := cs.takeWhile (· != '.')
  match cs.dropWhile (· != '.') with
  | [] => (digitsWithout? whole).map fun ds => (ds, 0)
  | _ :: fraction => do
    let a ← optionalDigits? whole
    let b ← optionalDigits? fraction
    if a.isEmpty && b.isEmpty then none else some (a ++ b, b.length)

def exponent? (cs : List Char) : Option Int :=
  let (negative, rest) := signed cs
  (digitsWithout? rest).map fun ds => if negative then -(ofDigits ds : Int) else ofDigits ds

def floatOf? (s : String) : Option Binary64 :=
  let (negative, rest) := signed (Text.trim s.toList)
  match String.ofList (rest.map Char.toLower) with
  | "inf" | "infinity" => some (.infinity negative)
  | "nan" => some .nan
  | _ => do
    let isMark (c : Char) : Bool := c == 'e' || c == 'E'
    let (ds, places) ← mantissa? (rest.takeWhile fun c => !isMark c)
    let e ← match rest.dropWhile fun c => !isMark c with
      | [] => some 0
      | _ :: cs => exponent? cs
    some (Binary64.ofDecimal negative (ofDigits ds) (e - places))

end Verbatim.Number
