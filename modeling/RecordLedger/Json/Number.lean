import RecordLedger.Decimal.Scaled
import RecordLedger.Decimal.Shortest
import RecordLedger.Json.Basic
import RecordLedger.Json.Token

/-!
What numerals stand for and how numbers are written. A numeral without point and exponent is an
integer if it fits 64 bits, signed or not; every other numeral, `-0` included, is a floating-point
number, and one that is too large is refused.
-/

namespace RecordLedger.Json

namespace Numeral

/-- The integer that a numeral spells, if it fits 64 bits and is written as one. -/
def int? (n : Numeral) : Option Int :=
  if n.fraction.isEmpty && n.exponent.isNone then
    let m := Text.Numeral.value 10 n.whole
    if n.negative then
      if m != 0 && m ≤ Nat.pow 2 63 then some (-(m : Int)) else none
    else if m < Nat.pow 2 64 then some m
    else none
  else none

def json? (n : Numeral) : Option Json :=
  match n.int? with
  | some m => some (.int m)
  | none =>
    (Decimal.ofDigits? n.negative n.whole n.fraction (n.exponent.getD 0)).map .float

def ofInt (n : Int) : Numeral := ⟨decide (n < 0), Text.Numeral.digits n.natAbs, [], none⟩

/-- Floating-point numbers are positional, with at least one digit after the point, when the power
of ten of their first digit is from -5 to 15; others have an exponent, which shows its sign. -/
def ofFloat (x : Decimal.Binary64) : Numeral :=
  let d := x.shortest
  if x.isZero then ⟨x.negative, [0], [0], none⟩
  else if -5 ≤ d.magnitude && d.magnitude ≤ 15 then
    let (whole, fraction) := d.positional
    ⟨x.negative, whole, fraction, none⟩
  else
    let ds := Text.Numeral.digits d.digits
    ⟨x.negative, ds.take 1, ds.drop 1, some d.magnitude⟩

def exponentText : Option Int → List Char
  | none => []
  | some e =>
    'e' :: (if e < 0 then '-' else '+') :: Text.Numeral.ofNat e.natAbs

def text (n : Numeral) : List Char :=
  (if n.negative then ['-'] else []) ++ n.whole.map Text.Numeral.digitChar ++
    (if n.fraction.isEmpty then [] else '.' :: n.fraction.map Text.Numeral.digitChar) ++
    exponentText n.exponent

end Numeral
end RecordLedger.Json
