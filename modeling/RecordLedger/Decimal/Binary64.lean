/-!
Finite binary64 numbers as exact values: a sign, a significand and a power of two. Every operation
is one exact quotient of natural numbers followed by one rounding, so nothing here depends on how a
machine computes.
-/

namespace RecordLedger.Decimal

/-- The number `± significand * 2 ^ exponent`. The significand has at most 53 bits, and fewer only
at the least exponent, -1074. -/
structure Binary64 where
  negative : Bool
  significand : Nat
  exponent : Int
deriving DecidableEq, Repr

namespace Binary64

def leastExponent : Int := -1074
def greatestExponent : Int := 971

def zero (negative : Bool) : Binary64 := ⟨negative, 0, leastExponent⟩

def greatest (negative : Bool) : Binary64 := ⟨negative, Nat.pow 2 53 - 1, greatestExponent⟩

def isZero (x : Binary64) : Bool := x.significand == 0

/-- `2 ^ e` for the numerator, `2 ^ (-e)` for the denominator: one of them is one. -/
def powers (e : Int) : Nat × Nat := (Nat.pow 2 e.toNat, Nat.pow 2 (-e).toNat)

def ratio (x : Binary64) : Nat × Nat :=
  let (up, down) := powers x.exponent
  (x.significand * up, down)

/-- The quotient rounded to the nearest integer, a tie to the even one. -/
def roundDiv (num den : Nat) : Nat :=
  let q := num / den
  let r := num % den
  if den < 2 * r || (2 * r == den && q % 2 == 1) then q + 1 else q

/-- The number nearest to `num / den`, a tie to the even significand; `none` beyond the largest. -/
def round (negative : Bool) (num den : Nat) : Option Binary64 :=
  if num == 0 then some (zero negative)
  else
    let k : Int := (num.log2 : Int) - (den.log2 : Int)
    let (up, down) := powers k
    let top := if den * up ≤ num * down then k - 52 else k - 53
    let e := max top leastExponent
    let (up, down) := powers e
    let m := roundDiv (num * down) (den * up)
    let (m, e) := if m == Nat.pow 2 53 then (Nat.pow 2 52, e + 1) else (m, e)
    if greatestExponent < e then none else some ⟨negative, m, e⟩

def ofNat (n : Nat) : Option Binary64 := round false n 1

def mul (x y : Binary64) : Option Binary64 :=
  let (a, b) := x.ratio
  let (c, d) := y.ratio
  round (x.negative != y.negative) (a * c) (b * d)

def div (x y : Binary64) : Option Binary64 :=
  let (a, b) := x.ratio
  let (c, d) := y.ratio
  round (x.negative != y.negative) (a * d) (b * c)

def signedRatio (x : Binary64) : Int × Nat :=
  let (a, b) := x.ratio
  (if x.negative then -(a : Int) else a, b)

/-- Order by value: the two zeros are equal. -/
def compareValue (x y : Binary64) : Ordering :=
  let (a, b) := x.signedRatio
  let (c, d) := y.signedRatio
  compare (a * d) (c * b)

def compareInt (x : Binary64) (n : Int) : Ordering :=
  let (a, b) := x.signedRatio
  compare a (n * b)

def toInt? (x : Binary64) : Option Int :=
  let (a, b) := x.signedRatio
  if a % b == 0 then some (a / b) else none

end Binary64
end RecordLedger.Decimal
