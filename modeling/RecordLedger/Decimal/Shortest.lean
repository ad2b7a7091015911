import RecordLedger.Decimal.Binary64
import RecordLedger.Text.Numeral

/-!
The shortest decimal that reads back as a given binary64 number, and decimals with a given number
of digits. A number owns the interval of reals that round to it; its ends belong to it exactly when
its significand is even. The first decimal grid with a point in the interval gives the digits.
-/

namespace RecordLedger.Decimal

/-- The decimal `digits * 10 ^ exponent`, a point of the grid of that exponent. -/
structure GridPoint where
  digits : Nat
  exponent : Int
deriving DecidableEq, Repr

namespace Binary64

/-- `num / den` as the greatest power of ten that does not exceed it. -/
def decimalExponent (num den : Nat) : Int :=
  if den ≤ num then ((Text.Numeral.digits (num / den)).length : Int) - 1 else below 400 1 (num * 10)
where
  below : Nat → Nat → Nat → Int
    | 0, j, _ => -(j : Int)
    | fuel + 1, j, n => if den ≤ n then -(j : Int) else below fuel (j + 1) (n * 10)

/-- Half of the distance to the neighbours, in quarters of a unit of the significand: below and
above. The lower neighbour of a power of two is closer. -/
def quarterGaps (x : Binary64) : Nat × Nat :=
  if x.significand == Nat.pow 2 52 && leastExponent < x.exponent then (1, 2) else (2, 2)

/-- The point of the grid `10 ^ t` that lies in the number's interval, the nearer of two. -/
def onGrid (x : Binary64) (t : Int) : Option Nat :=
  let (up, down) := powers (x.exponent - 2)
  let (lower, upper) := x.quarterGaps
  let tenUp := Nat.pow 10 t.toNat
  let tenDown := Nat.pow 10 (-t).toNat
  let unit := up * tenDown
  let step := down * tenUp
  let v := 4 * x.significand * unit
  let lo := (4 * x.significand - lower) * unit
  let hi := (4 * x.significand + upper) * unit
  let closed := x.significand % 2 == 0
  let inside (c : Nat) : Bool :=
    let p := c * step
    (lo < p && p < hi) || (closed && (p == lo || p == hi))
  let c := v / step
  match inside c, inside (c + 1) with
  | true, true => some (roundDiv v step)
  | true, false => some c
  | false, true => some (c + 1)
  | false, false => none

/-- Moves trailing zeros into the exponent. -/
def stripZeros : Nat → Nat → Int → GridPoint
  | 0, n, e => ⟨n, e⟩
  | fuel + 1, n, e => if n % 10 == 0 && n != 0 then stripZeros fuel (n / 10) (e + 1) else ⟨n, e⟩

/-- The fewest digits that read back as the number, and of those the nearest to it. -/
def shortest (x : Binary64) : GridPoint :=
  if x.isZero then ⟨0, 0⟩
  else
    let (num, den) := x.ratio
    let k := decimalExponent num den
    search k 17 1
where
  search (k : Int) : Nat → Nat → GridPoint
    | 0, _ => ⟨0, 0⟩
    | fuel + 1, n =>
      let t := k + 1 - n
      match x.onGrid t with
      | some c => stripZeros 20 c t
      | none => search k fuel (n + 1)

/-- The number in `n` digits, rounded to the nearest, half upwards, without trailing zeros. -/
def significant (x : Binary64) (n : Nat) : GridPoint :=
  if x.isZero then ⟨0, 0⟩
  else
    let (num, den) := x.ratio
    let t := decimalExponent num den + 1 - n
    let a := num * Nat.pow 10 (-t).toNat
    let b := den * Nat.pow 10 t.toNat
    stripZeros (n + 1) ((2 * a + b) / (2 * b)) t

end Binary64

def GridPoint.magnitude (d : GridPoint) : Int :=
  d.exponent + ((Text.Numeral.digits d.digits).length : Int) - 1

/-- Digits before and after the point, at least one on each side. -/
def GridPoint.positional (d : GridPoint) : List Nat × List Nat :=
  let ds := Text.Numeral.digits d.digits
  if 0 ≤ d.exponent then (ds ++ List.replicate d.exponent.toNat 0, [0])
  else
    let places := (-d.exponent).toNat
    if places < ds.length then (ds.take (ds.length - places), ds.drop (ds.length - places))
    else ([0], List.replicate (places - ds.length) 0 ++ ds)

end RecordLedger.Decimal
