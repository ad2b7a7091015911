import RecordLedger.Decimal.Shortest
import RecordLedger.Json.Token
import RecordLedger.Word

/-!
Values of statements. Any value may stand anywhere; comparison orders numbers before texts and
compares nothing with null, and a column's affinity decides whether the other side is first turned
into a number or into a text.
-/

namespace RecordLedger.Query

inductive Value
  | null
  | int (n : Int)
  | real (x : Decimal.Binary64)
  | text (s : String)
deriving DecidableEq, Repr

/-- What a column makes of a value that is compared with it. -/
inductive Affinity
  | integer
  | text
  | none
deriving DecidableEq, Repr

namespace Value

def greatestPower : Int := 400

/-- The floating-point number nearest to a numeral; beyond all numbers it is the greatest. -/
def nearest (n : Json.Numeral) : Decimal.Binary64 :=
  let digits := Text.Numeral.value 10 (n.whole ++ n.fraction)
  let power := n.exponent.getD 0 - n.fraction.length
  let bound := greatestPower + n.whole.length + n.fraction.length
  if digits = 0 || power < -bound then .zero n.negative
  else if bound < power then .greatest n.negative
  else
    (Decimal.Binary64.round n.negative (digits * Nat.pow 10 power.toNat)
      (Nat.pow 10 (-power).toNat)).getD (.greatest n.negative)

/-- A numeral that is written as an integer and fits 64 bits is an integer. -/
def ofNumeral (n : Json.Numeral) : Value :=
  let m : Int := Text.Numeral.value 10 n.whole
  let m := if n.negative then -m else m
  if n.fraction.isEmpty && n.exponent.isNone && Word.fitsSigned m then .int m
  else .real (nearest n)

def isSpace (c : Char) : Bool := c == ' ' || (9 ≤ c.toNat && c.toNat ≤ 13)

/-- Splits off a power of ten; letters without digits after them are no power. -/
def takeExponent (cs : List Char) : Option Int × List Char :=
  match cs with
  | [] => (none, [])
  | c :: rest =>
    if c == 'e' || c == 'E' then
      let (sign, digits) : Int × List Char :=
        match rest with
        | '-' :: rest => (-1, rest)
        | '+' :: rest => (1, rest)
        | rest => (1, rest)
      match Text.Numeral.takeDigits digits with
      | ([], _) => (none, cs)
      | (ds, rest) => (some (sign * Text.Numeral.value 10 ds), rest)
    else (none, cs)

/-- Splits off an unsigned number: digits with an optional point among them and an optional power
of ten. -/
def takeMagnitude (negative : Bool) (cs : List Char) : Option (Json.Numeral × List Char) :=
  let (whole, rest) := Text.Numeral.takeDigits cs
  let (point, fraction, rest) :=
    match rest with
    | '.' :: rest => let (ds, rest) := Text.Numeral.takeDigits rest; (true, ds, rest)
    | rest => (false, [], rest)
  if whole.isEmpty && fraction.isEmpty then none
  else
    let (exponent, rest) := takeExponent rest
    let fraction := if point && fraction.isEmpty then [0] else fraction
    some (⟨negative, whole, fraction, exponent⟩, rest)

def takeNumber (s : String) : Option (Json.Numeral × List Char) :=
  match s.toList.dropWhile isSpace with
  | '-' :: cs => takeMagnitude true cs
  | '+' :: cs => takeMagnitude false cs
  | cs => takeMagnitude false cs

def integral : Value → Value
  | .real x =>
    match x.toInt? with
    | some n => if Word.fitsSigned n then .int n else .real x
    | none => .real x
  | v => v

/-- Turns a text that is a number as a whole into that number. -/
def toNumber : Value → Value
  | .text s =>
    match takeNumber s with
    | some (n, rest) => if rest.all isSpace then integral (ofNumeral n) else .text s
    | none => .text s
  | v => v

def shownDigits : Nat := 15

/-- At least two digits after the sign. -/
def exponentText (e : Int) : List Char :=
  'e' :: (if e < 0 then '-' else '+') :: Text.Numeral.padded 2 e.natAbs

/-- Positional when the power of ten of the first digit is from -4 to 14, with at least one digit
on each side of the point. -/
def realText (x : Decimal.Binary64) : List Char :=
  let chars := List.map Text.Numeral.digitChar
  if x.isZero then ['0', '.', '0']
  else
    let d := x.significant shownDigits
    let sign := if x.negative then ['-'] else []
    if -4 ≤ d.magnitude && d.magnitude < shownDigits then
      let (whole, fraction) := d.positional
      sign ++ chars whole ++ '.' :: chars fraction
    else
      let ds := Text.Numeral.digits d.digits
      let fraction := if ds.length ≤ 1 then [0] else ds.drop 1
      sign ++ chars (ds.take 1) ++ '.' :: chars fraction ++ exponentText d.magnitude

def toText : Value → Value
  | .int n => .text (String.ofList (Text.Numeral.ofInt n))
  | .real x => .text (String.ofList (realText x))
  | v => v

/-- Puts two texts together; with null there is no text. -/
def append (a b : Value) : Value :=
  match a.toText, b.toText with
  | .text s, .text t => .text (s ++ t)
  | _, _ => .null

/-- The order of two values; none with null. -/
def order? : Value → Value → Option Ordering
  | .null, _ | _, .null => none
  | .int a, .int b => some (compare a b)
  | .int a, .real y => some (y.compareInt a).swap
  | .real x, .int b => some (x.compareInt b)
  | .real x, .real y => some (x.compareValue y)
  | .text s, .text t => some (compare s t)
  | .text _, _ => some .gt
  | _, .text _ => some .lt

/-- The order by which rows are sorted: null comes first. -/
def sortOrder (a b : Value) : Ordering :=
  match a, b with
  | .null, .null => .eq
  | .null, _ => .lt
  | _, .null => .gt
  | _, _ => (order? a b).getD .eq

/-- Both sides of a comparison as they are compared. An integer column makes the other side a
number; a text column makes a side that is no column a text. -/
def aligned (a b : Value) : Affinity → Affinity → Value × Value
  | .integer, .integer => (a, b)
  | .integer, _ => (a, b.toNumber)
  | _, .integer => (a.toNumber, b)
  | .text, .none => (a, b.toText)
  | .none, .text => (a.toText, b)
  | _, _ => (a, b)

def ofBool? : Option Bool → Value
  | some true => .int 1
  | some false => .int 0
  | none => .null

/-- A text counts as the number at its front, and as zero without one. -/
def number : Value → Value
  | .text s =>
    match takeNumber s with
    | some (n, _) => ofNumeral n
    | none => .int 0
  | v => v

/-- What a condition makes of a value: a number other than zero holds, null is unknown. -/
def truth? (v : Value) : Option Bool :=
  match v.number with
  | .int n => some (n != 0)
  | .real x => some !x.isZero
  | _ => none

def negate (v : Value) : Value :=
  match v.number with
  | .int n =>
    if Word.fitsSigned (-n) then .int (-n)
    else .real (nearest ⟨decide (0 < n), Text.Numeral.digits n.natAbs, [], none⟩)
  | .real x => .real { x with negative := !x.negative }
  | v => v

end Value
end RecordLedger.Query
