import Verbatim.DataReader.Strings
import Verbatim.Data

/-!
# Numbers, dates and times of a document

Each form is recognised by the longest text that has the form; a number or date is complete where the form ends, whatever
follows.
-/

namespace Verbatim.DataReader

/-- Further digits of a run: each may be preceded by one underscore. -/
def moreDigits (isDigit : Char → Bool) : List Char → List Char × List Char
  | [] => ([], [])
  | x :: rest =>
    if isDigit x then
      let (digits, tail) := moreDigits isDigit rest
      (x :: digits, tail)
    else
      match x, rest with
      | '_', y :: rest' =>
        if isDigit y then
          let (digits, tail) := moreDigits isDigit rest'
          (y :: digits, tail)
        else ([], x :: rest)
      | _, _ => ([], x :: rest)

/-- Digits in which single underscores may stand, beginning with a digit. -/
def digitRun (isDigit : Char → Bool) : List Char → Option (List Char × List Char)
  | [] => none
  | x :: rest =>
    if isDigit x then
      let (digits, tail) := moreDigits isDigit rest
      some (x :: digits, tail)
    else none

def isDecimal (c : Char) : Bool := '0' ≤ c && c ≤ '9'

def numeral (base : Nat) (digits : List Char) : Nat :=
  digits.foldl (fun n c => n * base + (hexValue? c).getD 0) 0

/-- The base of an integer with a base mark, and its digits. -/
def baseOf? : Char → Option (Nat × (Char → Bool))
  | 'x' => some (16, fun c => (hexValue? c).isSome)
  | 'b' => some (2, fun c => c == '0' || c == '1')
  | 'o' => some (8, fun c => '0' ≤ c && c ≤ '7')
  | _ => none

/-- An integer with a base mark. -/
def basedInteger? : List Char → Option (Nat × List Char)
  | '0' :: mark :: rest => do
    let (base, isDigit) ← baseOf? mark
    let (digits, tail) ← digitRun isDigit rest
    some (numeral base digits, tail)
  | _ => none

/-- The sign at the head of a number, and whether it is a minus sign. -/
def sign? : List Char → Bool × List Char
  | '+' :: rest => (false, rest)
  | '-' :: rest => (true, rest)
  | text => (false, text)

/-- The digits before the point: zero alone or a run that does not begin with zero. -/
def wholePart? : List Char → Option (List Char × List Char)
  | '0' :: rest => some (['0'], rest)
  | text => digitRun isDecimal text

/-- The digits behind the point, if a point with digits follows. -/
def fraction (text : List Char) : List Char × List Char :=
  match text with
  | '.' :: rest => (digitRun isDecimal rest).getD ([], text)
  | _ => ([], text)

/-- The exponent, if one with digits follows. -/
def exponent? (text : List Char) : Option (Int × List Char) :=
  match text with
  | mark :: rest =>
    if mark = 'e' ∨ mark = 'E' then do
      let (negative, rest) := sign? rest
      let (digits, tail) ← digitRun isDecimal rest
      let n : Int := numeral 10 digits
      some (if negative then -n else n, tail)
    else none
  | [] => none

/-- A number in decimal digits: an integer, or a float if a fraction or an exponent follows. -/
inductive Number where
  /-- An integer with the number of its decimal digits, zero for other bases. -/
  | integer (n : Int) (decimalDigits : Nat)
  | float (x : Binary64)

/-- A decimal number, with the text behind it. -/
def decimal? (text : List Char) : Option (Number × List Char) := do
  let (negative, unsigned) := sign? text
  let (whole, afterWhole) ← wholePart? unsigned
  let (digits, afterFraction) := fraction afterWhole
  match digits, exponent? afterFraction with
  | [], none =>
    let n : Int := numeral 10 whole
    some (.integer (if negative then -n else n) whole.length, afterWhole)
  | _, none => some (.float (.ofDecimal negative (numeral 10 (whole ++ digits)) (-digits.length)), afterFraction)
  | _, some (e, tail) => some (.float (.ofDecimal negative (numeral 10 (whole ++ digits)) (e - digits.length)), tail)

def number? (text : List Char) : Option (Number × List Char) :=
  match basedInteger? text with
  | some (n, tail) => some (.integer n 0, tail)
  | none => decimal? text

/-! ## Dates and times -/

/-- A number of two digits below a bound, from a least one on. -/
def twoDigits? (least bound : Nat) : List Char → Option (Nat × List Char)
  | a :: b :: rest =>
    if isDecimal a && isDecimal b then
      let n := numeral 10 [a, b]
      if least ≤ n ∧ n < bound then some (n, rest) else none
    else none
  | _ => none

/-- A colon before a number of two digits. -/
def colonDigits? (bound : Nat) : List Char → Option (Nat × List Char)
  | ':' :: rest => twoDigits? 0 bound rest
  | _ => none

/-- The microseconds behind a point; digits beyond the sixth are dropped. -/
def microseconds (text : List Char) : Nat × List Char :=
  match text with
  | '.' :: rest =>
    let digits := rest.takeWhile isDecimal
    if digits.isEmpty then (0, text) else (Calendar.micros digits, rest.dropWhile isDecimal)
  | _ => (0, text)

/-- A time of day without an offset. -/
def localTime? (text : List Char) : Option (Time × List Char) := do
  let (hour, text) ← twoDigits? 0 24 text
  let (minute, text) ← colonDigits? 60 text
  let (second, text) ← colonDigits? 60 text
  let (micro, text) := microseconds text
  some (⟨hour, minute, second, micro, none⟩, text)

/-- An offset from universal time: `Z`, or a sign with hours and minutes. -/
def zone? : List Char → Option (Int × List Char)
  | [] => none
  | mark :: rest =>
    if mark = 'Z' ∨ mark = 'z' then some (0, rest)
    else if mark = '+' ∨ mark = '-' then do
      let (hours, rest) ← twoDigits? 0 24 rest
      let (minutes, rest) ← colonDigits? 60 rest
      let seconds : Int := hours * 3600 + minutes * 60
      some (if mark = '-' then -seconds else seconds, rest)
    else none

/-- Four digits, a month and a day, which need not be a day of the calendar. -/
def dateNumbers? : List Char → Option (Date × List Char)
  | a :: b :: c :: d :: '-' :: rest =>
    if [a, b, c, d].all isDecimal then do
      let (month, rest) ← twoDigits? 1 13 rest
      match rest with
      | '-' :: rest => do
        let (day, rest) ← twoDigits? 1 32 rest
        some (⟨numeral 10 [a, b, c, d], month, day⟩, rest)
      | _ => none
    else none
  | _ => none

/-- The time that follows a date behind one of the marks `T`, `t` and a space. -/
def timeAfterDate? : List Char → Option (Time × List Char)
  | mark :: rest =>
    if mark = 'T' ∨ mark = 't' ∨ mark = ' ' then do
      let (time, rest) ← localTime? rest
      match zone? rest with
      | some (offset, tail) => some ({ time with offset := some offset }, tail)
      | none => some (time, rest)
    else none
  | [] => none

/-- A date, with a time if one follows; `none` inside if the calendar has no such day. -/
def dateTime? (text : List Char) : Option (Option Plain × List Char) := do
  let (date, rest) ← dateNumbers? text
  match timeAfterDate? rest with
  | some (time, tail) => some (if date.isValid then some (.dateTime ⟨date, time⟩) else none, tail)
  | none => some (if date.isValid then some (.date date) else none, rest)

/-! ## Scalars -/

/-- Words that stand for values. -/
def words : List (List Char × Plain) :=
  [("true".toList, .boolean true), ("false".toList, .boolean false)]

/-- Words that stand for special floats. -/
def floatWords : List (List Char × Binary64) :=
  [("inf".toList, .infinity false), ("nan".toList, .nan), ("-inf".toList, .infinity true),
    ("+inf".toList, .infinity false), ("-nan".toList, .nan), ("+nan".toList, .nan)]

/-- The first word that stands at a cursor. -/
def word? {α : Type} (table : List (List Char × α)) (c : Cursor) : Option (α × Cursor) :=
  (table.find? fun w => c.startsWith w.1).map fun w => (w.2, c.drop w.1.length)

/-- The cursor at which a given rest of the text is ahead. -/
def moveTo (c : Cursor) (rest : List Char) : Cursor := c.drop (c.rest.length - rest.length)

/-- A number, unless it has too many digits. -/
def numberValue (n : Number) (c : Cursor) : Except Fault Plain :=
  match n with
  | .integer n digits => if maxIntegerDigits < digits then fail (.tooManyDigits digits) c else .ok (.integer n)
  | .float x => .ok (.float x)

def bareScalar (c : Cursor) : Step Plain :=
  match word? words c with
  | some r => .ok r
  | none =>
  match dateTime? c.rest with
  | some (some d, rest) => .ok (d, moveTo c rest)
  | some (none, _) => fail .invalidDate c
  | none =>
  match localTime? c.rest with
  | some (t, rest) => .ok (.time t, moveTo c rest)
  | none =>
  match number? c.rest with
  | some (n, rest) => match numberValue n c with
    | .error f => .error f
    | .ok d => .ok (d, moveTo c rest)
  | none =>
  match word? floatWords c with
  | some (x, d) => .ok (.float x, d)
  | none => fail .invalidValue c

def scalar (c : Cursor) : Step Plain :=
  if c.startsWith ['"'] || c.startsWith ['\''] then
    match stringValue c with
    | .error f => .error f
    | .ok (text, d) => .ok (.string (String.ofList text), d)
  else bareScalar c

end Verbatim.DataReader
