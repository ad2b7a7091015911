/-!
Decimal numerals: the digits of a number and the number of a row of digits.
-/

namespace RecordLedger.Text.Numeral

def isDigit (c : Char) : Bool := '0' ≤ c && c ≤ '9'

/-- The value of a decimal digit; other characters have no value here. -/
def digit? (c : Char) : Option Nat := if isDigit c then some (c.toNat - '0'.toNat) else none

def digitChar (d : Nat) : Char := Char.ofNat ('0'.toNat + d)

/-- The number that a row of digits spells in `base`, the most significant digit first. -/
def value (base : Nat) (ds : List Nat) : Nat := ds.foldl (fun n d => base * n + d) 0

/-- Digits of `n` in front of `rest`; `fuel` digits suffice when `n < 10 ^ fuel`. -/
def digitsOnto : Nat → Nat → List Nat → List Nat
  | 0, _, rest => rest
  | fuel + 1, n, rest => if n < 10 then n :: rest else digitsOnto fuel (n / 10) (n % 10 :: rest)

/-- The decimal digits of a number without leading zeros; zero has one digit. -/
def digits (n : Nat) : List Nat := digitsOnto (n + 1) n []

def ofNat (n : Nat) : List Char := (digits n).map digitChar

def ofInt : Int → List Char
  | .ofNat n => ofNat n
  | .negSucc n => '-' :: ofNat (n + 1)

def padded (width n : Nat) : List Char :=
  let ds := ofNat n
  List.replicate (width - ds.length) '0' ++ ds

def takeDigits : List Char → List Nat × List Char
  | [] => ([], [])
  | c :: cs =>
    match digit? c with
    | some d => let (ds, rest) := takeDigits cs; (d :: ds, rest)
    | none => ([], c :: cs)

def nat? (cs : List Char) : Option Nat :=
  match takeDigits cs with
  | ([], _) => none
  | (ds, []) => some (value 10 ds)
  | (_, _ :: _) => none

def int? : List Char → Option Int
  | '-' :: cs => (nat? cs).map fun n => -(n : Int)
  | '+' :: cs => (nat? cs).map Int.ofNat
  | cs => (nat? cs).map Int.ofNat

end RecordLedger.Text.Numeral
