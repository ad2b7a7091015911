import RecordLedger.Decimal.Binary64

/-!
From decimal digits to a binary64 number: the leading digits that fit 64 bits become a significand,
which is then scaled by powers of ten, with one rounding for each step.
-/

namespace RecordLedger.Decimal

/-- Appends digits to `n` while the result fits 64 bits; also counts the digits taken. -/
def appendDigits (n : Nat) : List Nat → Nat × Nat
  | [] => (n, 0)
  | d :: ds =>
    let next := 10 * n + d
    if next < Nat.pow 2 64 then
      let (m, taken) := appendDigits next ds
      (m, taken + 1)
    else (n, 0)

def powerOfTen (k : Nat) : Binary64 :=
  (Binary64.round false (Nat.pow 10 k) 1).getD (Binary64.zero false)

/-- Multiplies by a power of ten. One factor reaches 308; a smaller power is divided out in steps
of 308, and after three of them only zero is left. -/
def scale : Nat → Binary64 → Int → Option Binary64
  | 0, x, _ => some x
  | steps + 1, x, e =>
    if e.natAbs ≤ 308 then
      if 0 ≤ e then x.mul (powerOfTen e.natAbs) else x.div (powerOfTen e.natAbs)
    else if x.isZero then some x
    else if 0 ≤ e then none
    else (x.div (powerOfTen 308)).bind fun y => scale steps y (e + 308)

/-- Digits before and after the point and a power of ten; `none` when the number is too large. -/
def ofDigits? (negative : Bool) (whole fraction : List Nat) (exponent : Int) : Option Binary64 := do
  let (n, taken) := appendDigits 0 whole
  let (n, places) := appendDigits n fraction
  let x ← Binary64.ofNat n
  let y ← scale 5 x (exponent + (whole.length - taken : Nat) - places)
  return { y with negative }

end RecordLedger.Decimal
