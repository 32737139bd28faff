/-!
# Dates and times

Calendar dates of the years 1 to 9999, times of day with microseconds, and date-times with an optional
offset from universal time.
-/

namespace Verbatim

structure Date where
  year : Nat
  /-- The month, from 1. -/
  month : Nat
  /-- The day of the month, from 1. -/
  day : Nat
  deriving Repr, DecidableEq, Inhabited

/-- A time of day, with its offset from universal time in seconds if it has one. -/
structure Time where
  hour : Nat
  minute : Nat
  second : Nat
  micro : Nat := 0
  /-- The offset from universal time, in seconds. -/
  offset : Option Int := none
  deriving Repr, DecidableEq, Inhabited

structure DateTime where
  date : Date
  time : Time
  deriving Repr, DecidableEq, Inhabited

namespace Date

/-- Whether a year has a 29th of February. -/
def isLeapYear (year : Nat) : Bool :=
  year % 4 = 0 && (year % 100 ≠ 0 || year % 400 = 0)

def daysInMonth (year month : Nat) : Nat :=
  if month = 2 then (if isLeapYear year then 29 else 28)
  else if month = 4 ∨ month = 6 ∨ month = 9 ∨ month = 11 then 30
  else 31

/-- Whether the numbers name a day of the years 1 to 9999. -/
def isValid (d : Date) : Bool :=
  1 ≤ d.year && d.year ≤ 9999 && 1 ≤ d.month && d.month ≤ 12 && 1 ≤ d.day && d.day ≤ daysInMonth d.year d.month

def daysBeforeMonth (year : Nat) : Nat → Nat
  | 0 => 0
  | 1 => 0
  | month + 2 => daysBeforeMonth year (month + 1) + daysInMonth year (month + 1)

/-- The number of a day, counted from the first day of the year 1. -/
def dayNumber (d : Date) : Nat :=
  let y := d.year - 1
  y * 365 + y / 4 - y / 100 + y / 400 + daysBeforeMonth d.year d.month + d.day

end Date

/-- A number with at least `width` digits. -/
def padded (width n : Nat) : String :=
  let digits := Nat.toDigits 10 n
  String.ofList (List.replicate (width - digits.length) '0' ++ digits)

/-- Year, month and day, joined by hyphens. -/
def Date.text (d : Date) : String :=
  padded 4 d.year ++ "-" ++ padded 2 d.month ++ "-" ++ padded 2 d.day

namespace Time

/-- Whether the numbers name a time of day, with an offset of less than a day. -/
def isValid (t : Time) : Bool :=
  t.hour < 24 && t.minute < 60 && t.second < 60 && t.micro < 1000000 &&
    (match t.offset with
      | none => true
      | some o => o.natAbs < 86400)

/-- An offset as a sign, hours and minutes, with seconds only if there are any. -/
def offsetText (offset : Int) : String :=
  let n := offset.natAbs
  let seconds := if n % 60 = 0 then "" else ":" ++ padded 2 (n % 60)
  (if offset < 0 then "-" else "+") ++ padded 2 (n / 3600) ++ ":" ++ padded 2 (n / 60 % 60) ++ seconds

/-- Hour, minute and second, then a fraction of six digits if it is not zero, then the offset. -/
def text (t : Time) : String :=
  padded 2 t.hour ++ ":" ++ padded 2 t.minute ++ ":" ++ padded 2 t.second ++
    (if t.micro = 0 then "" else "." ++ padded 6 t.micro) ++
    (match t.offset with
      | none => ""
      | some o => offsetText o)

/-- The microseconds since midnight, taken to universal time. -/
def ticks (t : Time) : Int :=
  ((t.hour * 3600 + t.minute * 60 + t.second : Nat) - t.offset.getD 0) * 1000000 + t.micro

/-- Times are equal when both or neither have an offset and they name one instant of a day. -/
def equals (s t : Time) : Bool := s.offset.isSome == t.offset.isSome && s.ticks == t.ticks

end Time

namespace DateTime

def textWith (separator : String) (x : DateTime) : String := x.date.text ++ separator ++ x.time.text

/-- Date-times are equal when both or neither have an offset and they name one instant. -/
def equals (x y : DateTime) : Bool :=
  x.time.offset.isSome == y.time.offset.isSome &&
    (x.date.dayNumber : Int) * 86400000000 + x.time.ticks ==
      (y.date.dayNumber : Int) * 86400000000 + y.time.ticks

end DateTime

/-! ## Reading the written forms -/

namespace Calendar

/-- A natural number of exactly the given digits. -/
def number? (digits : List Char) : Option Nat :=
  if digits.isEmpty || !digits.all (fun c => '0' ≤ c && c ≤ '9') then none
  else some (digits.foldl (fun n c => n * 10 + (c.toNat - 48)) 0)

/-- The date that a text of ten characters names. -/
def date? : List Char → Option Date
  | [a, b, c, d, '-', e, f, '-', g, h] => do
    let date : Date := ⟨← number? [a, b, c, d], ← number? [e, f], ← number? [g, h]⟩
    if date.isValid then some date else none
  | _ => none

/-- The seconds of an offset: a sign, hours and minutes, perhaps seconds. -/
def offset? : List Char → Option Int
  | sign :: a :: b :: ':' :: c :: d :: rest => do
    let h ← number? [a, b]
    let m ← number? [c, d]
    let s ← match rest with
      | [] => some 0
      | [':', e, f] => number? [e, f]
      | _ => none
    let n : Int := h * 3600 + m * 60 + s
    if sign = '+' then some n else if sign = '-' then some (-n) else none
  | _ => none

/-- The digits of a fraction as microseconds; further digits are dropped. -/
def micros (digits : List Char) : Nat :=
  let six := digits.take 6
  (number? (six ++ List.replicate (6 - six.length) '0')).getD 0

/-- The time that a text names: hours and minutes, then seconds, a fraction and an offset as far as given. -/
def time? (text : List Char) : Option Time := do
  let isOffset (c : Char) : Bool := c == '+' || c == '-' || c == 'Z'
  let clock := text.takeWhile fun c => !isOffset c
  let tail := text.dropWhile fun c => !isOffset c
  let offset ← match tail with
    | [] => some none
    | ['Z'] => some (some 0)
    | zone => (offset? zone).map some
  let time ← match clock with
    | [a, b, ':', c, d] => some ⟨← number? [a, b], ← number? [c, d], 0, 0, offset⟩
    | a :: b :: ':' :: c :: d :: ':' :: e :: f :: rest => do
      let micro ← match rest with
        | [] => some 0
        | '.' :: digits => (number? digits).map fun _ => micros digits
        | _ => none
      some (⟨← number? [a, b], ← number? [c, d], ← number? [e, f], micro, offset⟩ : Time)
    | _ => none
  if time.isValid then some time else none

/-- The date-time that a text names: a date alone is midnight, else one character divides date and time. -/
def dateTime? (text : List Char) : Option DateTime := do
  let date ← date? (text.take 10)
  match text.drop 10 with
  | [] => some ⟨date, ⟨0, 0, 0, 0, none⟩⟩
  | _ :: clock => do some ⟨date, ← time? clock⟩

end Calendar

end Verbatim
