import Verbatim.Number.Binary64

/-!
# Shortest decimal text of a number

A finite number is written with the fewest decimal digits that read back as the same number, and among
those with the digits nearest to it. All tests are made on exact fractions.
-/

namespace Verbatim

namespace Shortest

structure Fraction where
  num : Nat
  den : Nat
  deriving Repr

namespace Fraction

/-- `m · 2 ^ e` as a fraction. -/
def ofScaled (m : Nat) (e : Int) : Fraction :=
  if e < 0 then ⟨m, Nat.pow 2 e.natAbs⟩ else ⟨m * Nat.pow 2 e.natAbs, 1⟩

/-- `m · 10 ^ e` as a fraction. -/
def ofDecimal (m : Nat) (e : Int) : Fraction :=
  if e < 0 then ⟨m, Nat.pow 10 e.natAbs⟩ else ⟨m * Nat.pow 10 e.natAbs, 1⟩

def lt (a b : Fraction) : Bool := a.num * b.den < b.num * a.den

def le (a b : Fraction) : Bool := a.num * b.den ≤ b.num * a.den

def dist (a b : Fraction) : Fraction :=
  let x := a.num * b.den
  let y := b.num * a.den
  ⟨if x < y then y - x else x - y, a.den * b.den⟩

end Fraction

/-- The numbers that round to one binary number: an interval around it, whose ends belong to it when
the mantissa is even. -/
structure Interval where
  low : Fraction
  high : Fraction
  /-- Whether the ends round to the number too. -/
  closed : Bool

/-- The interval of `m · 2 ^ e`. Below a power of two the next number is half as far away. -/
def interval (m : Nat) (e : Int) : Interval :=
  let high := Fraction.ofScaled (2 * m + 1) (e - 1)
  let low :=
    if m = Nat.pow 2 52 ∧ Binary64.minExponent < e then Fraction.ofScaled (4 * m - 1) (e - 2)
    else Fraction.ofScaled (2 * m - 1) (e - 1)
  ⟨low, high, m % 2 = 0⟩

def Interval.contains (i : Interval) (x : Fraction) : Bool :=
  if i.closed then i.low.le x && x.le i.high else i.low.lt x && x.lt i.high

/-- The exponent `k` with `10 ^ k ≤ v < 10 ^ (k + 1)`, searched downwards from a bound. -/
def decimalExponent (v : Fraction) : Nat → Int → Int
  | 0, k => k
  | n + 1, k => if (Fraction.ofDecimal 1 k).le v then k else decimalExponent v n (k - 1)

/-- The quotient of a fraction by `10 ^ k`, rounded down. -/
def floorAt (v : Fraction) (k : Int) : Nat :=
  if k < 0 then v.num * Nat.pow 10 k.natAbs / v.den else v.num / (v.den * Nat.pow 10 k.natAbs)

/-- The better of the two neighbours of `v` on the grid of multiples of `10 ^ k`, if one of them lies in
the interval. -/
def onGrid (v : Fraction) (i : Interval) (k : Int) : Option Nat :=
  let d := floorAt v k
  let below := Fraction.ofDecimal d k
  let above := Fraction.ofDecimal (d + 1) k
  match i.contains below && d != 0, i.contains above with
  | true, true =>
    let x := v.dist below
    let y := v.dist above
    if x.lt y then some d
    else if y.lt x then some (d + 1)
    else if d % 2 = 0 then some d else some (d + 1)
  | true, false => some d
  | false, true => some (d + 1)
  | false, false => none

/-- The first grid with a hit, beginning with `count` digits. -/
def search (v : Fraction) (i : Interval) (top : Int) : Nat → Nat → Nat × Int
  | 0, count => (floorAt v (top + 1 - count), top + 1 - count)
  | n + 1, count =>
    let k := top + 1 - (count : Int)
    match onGrid v i k with
    | some d => (d, k)
    | none => search v i top n (count + 1)

/-- The shortest decimal `d · 10 ^ k` that reads back as the positive number `m · 2 ^ e`. -/
def decimal (m : Nat) (e : Int) : Nat × Int :=
  let v := Fraction.ofScaled m e
  let guess : Int := ((m.log2 : Int) + e) * 30103 / 100000 + 2
  let top := decimalExponent v 12 guess
  search v (interval m e) top 17 1

end Shortest

/-- How decimals are written: where positional notation ends and how wide an exponent is. -/
structure DecimalFormat where
  /-- Decimal exponents below this one are written with an exponent. -/
  positionalFrom : Int
  /-- Decimal exponents from this one on are written with an exponent. -/
  positionalTo : Int
  exponentWidth : Nat

namespace DecimalFormat

/-- Numbers of a document: positional from `1e-4` up to `1e16`, exponents of two digits at least. -/
def document : DecimalFormat := ⟨-4, 16, 2⟩

def padLeft (width : Nat) (s : String) : String :=
  String.ofList (List.replicate (width - s.length) '0') ++ s

/-- Digits without trailing zeros, with the number of zeros dropped; at least one digit stays. -/
def trimZeros : Nat → Nat → Nat × Nat
  | 0, d => (d, 0)
  | n + 1, d =>
    if d % 10 = 0 ∧ d ≠ 0 then
      let (t, k) := trimZeros n (d / 10)
      (t, k + 1)
    else (d, 0)

/-- Writes `d · 10 ^ k` for a positive `d`. -/
def write (f : DecimalFormat) (d : Nat) (k : Int) : String :=
  let (d, zeros) := trimZeros 20 d
  let k := k + zeros
  let digits := (toString d).toList
  let point := k + digits.length
  let exponent := point - 1
  if f.positionalFrom ≤ exponent ∧ exponent < f.positionalTo then
    if point ≤ 0 then
      "0." ++ String.ofList (List.replicate point.natAbs '0' ++ digits)
    else if 0 ≤ k then
      String.ofList (digits ++ List.replicate k.natAbs '0') ++ ".0"
    else
      String.ofList (digits.take point.natAbs) ++ "." ++ String.ofList (digits.drop point.natAbs)
  else
    let lead := String.ofList (digits.take 1)
    let rest := digits.drop 1
    let mantissa := if rest.isEmpty then lead else lead ++ "." ++ String.ofList rest
    let sign := if exponent < 0 then "-" else "+"
    mantissa ++ "e" ++ sign ++ padLeft f.exponentWidth (toString exponent.natAbs)

end DecimalFormat

def Binary64.text : Binary64 → String
  | .nan => "nan"
  | .infinity s => if s then "-inf" else "inf"
  | .finite s m e =>
    let sign := if s then "-" else ""
    if m = 0 then sign ++ "0.0"
    else
      let (d, k) := Shortest.decimal m e
      sign ++ DecimalFormat.document.write d k

end Verbatim
