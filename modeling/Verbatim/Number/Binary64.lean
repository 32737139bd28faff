/-!
# Binary floating point numbers

A number of the 64-bit binary format is kept as the exact value `mantissa · 2 ^ exponent`, so every
statement about it is a statement about natural numbers.
-/

namespace Verbatim

/-- A number of the 64-bit binary format. A finite one stands for `mantissa · 2 ^ exponent`, with
`mantissa < 2 ^ 53` and an exponent of at least `-1074`. -/
inductive Binary64 where
  /-- The result that is no number. -/
  | nan
  | infinity (negative : Bool)
  /-- The value `± mantissa · 2 ^ exponent`. -/
  | finite (negative : Bool) (mantissa : Nat) (exponent : Int)
  deriving Repr, DecidableEq, Inhabited

namespace Binary64

def minExponent : Int := -1074

def maxExponent : Int := 971

def zero (negative : Bool) : Binary64 := .finite negative 0 minExponent

/-- The quotient `num / den` rounded to the nearest natural number, a tie going to the even one. -/
def roundDiv (num den : Nat) : Nat :=
  let q := num / den
  let r := num % den
  if 2 * r < den then q
  else if den < 2 * r then q + 1
  else if q % 2 = 0 then q else q + 1

/-- `num / den` scaled by `2 ^ (-exponent)` and rounded. -/
def scaledMantissa (num den : Nat) (exponent : Int) : Nat :=
  if exponent < 0 then roundDiv (num * Nat.pow 2 exponent.natAbs) den
  else roundDiv num (den * Nat.pow 2 exponent.natAbs)

/-- Whether `num / den < 2 ^ k`. -/
def ratioBelow (num den : Nat) (k : Int) : Bool :=
  if k < 0 then num * Nat.pow 2 k.natAbs < den else num < den * Nat.pow 2 k.natAbs

/-- The exponent at which `num / den` has a mantissa of 53 bits, or the least exponent. -/
def ratioExponent (num den : Nat) : Int :=
  let guess : Int := (num.log2 : Int) - (den.log2 : Int) - 52
  let exact := if ratioBelow num den (guess + 52) then guess - 1 else guess
  max exact minExponent

/-- The number nearest to `num / den`; what lies beyond the largest number becomes infinite. -/
def ofRatio (negative : Bool) (num den : Nat) : Binary64 :=
  if num = 0 then zero negative
  else
    let e := ratioExponent num den
    let m := scaledMantissa num den e
    let (m, e) := if m = Nat.pow 2 53 then (Nat.pow 2 52, e + 1) else (m, e)
    if maxExponent < e then .infinity negative
    else .finite negative m e

/-- The number of decimal digits of a natural number, zero having none. -/
def decimalLength (n : Nat) : Nat :=
  if n = 0 then 0 else (Nat.toDigits 10 n).length

/-- The number nearest to `digits · 10 ^ exponent`. Values that are certainly too large or too small are
settled before any power is computed. -/
def ofDecimal (negative : Bool) (digits : Nat) (exponent : Int) : Binary64 :=
  let magnitude := exponent + (decimalLength digits : Int)
  if digits = 0 then zero negative
  else if 400 < magnitude then .infinity negative
  else if magnitude < -400 then zero negative
  else if exponent < 0 then ofRatio negative digits (Nat.pow 10 exponent.natAbs)
  else ofRatio negative (digits * Nat.pow 10 exponent.natAbs) 1

def signed (negative : Bool) (mantissa : Nat) : Int :=
  if negative then -(mantissa : Int) else mantissa

/-- Numeric equality of `a · 2 ^ e` and `b · 2 ^ f`. -/
def scaledEquals (a : Int) (e : Int) (b : Int) (f : Int) : Bool :=
  if e ≤ f then a == b * Int.pow 2 (f - e).natAbs else a * Int.pow 2 (e - f).natAbs == b

/-- Numeric equality: both zeros are equal and not-a-number differs from everything. -/
def equals : Binary64 → Binary64 → Bool
  | .infinity s, .infinity t => s == t
  | .finite s m e, .finite t n f => scaledEquals (signed s m) e (signed t n) f
  | _, _ => false

def equalsInt (n : Int) : Binary64 → Bool
  | .finite s m e => scaledEquals (signed s m) e n 0
  | _ => false

end Binary64

end Verbatim
