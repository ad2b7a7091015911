import RecordLedger.Calendar
import RecordLedger.Decimal.Scaled
import RecordLedger.Json.Token
import RecordLedger.Text.Hex
import RecordLedger.Toml.Basic
import RecordLedger.Word

/-!
Scalars of TOML other than strings: truth values, integers in four bases, floats, and dates and
times. Underscores may stand between digits.
-/

namespace RecordLedger.Toml.Scalar

/-- A row of digits, which single underscores may divide. -/
def digits? (digit? : Char → Option Nat) : List Char → Option (List Nat)
  | [] => none
  | [c] => (digit? c).map ([·])
  | c :: '_' :: cs => do return (← digit? c) :: (← digits? digit? cs)
  | c :: cs => do return (← digit? c) :: (← digits? digit? cs)

def digitBelow? (base : Nat) (c : Char) : Option Nat := (Text.Hex.digit? c).filter (· < base)

def natural? (base : Nat) (cs : List Char) : Option Nat :=
  (digits? (digitBelow? base) cs).map (Text.Numeral.value base)

def whole? (cs : List Char) : Option (List Nat) :=
  (digits? Text.Numeral.digit? cs).filter fun
    | 0 :: _ :: _ => false
    | _ => true

/-- An integer that fits 64 bits. Only decimal ones have a sign. -/
def int? (cs : List Char) : Option Int :=
  let n : Option Int :=
    match cs with
    | '0' :: 'x' :: cs => (natural? 16 cs).map Int.ofNat
    | '0' :: 'o' :: cs => (natural? 8 cs).map Int.ofNat
    | '0' :: 'b' :: cs => (natural? 2 cs).map Int.ofNat
    | '-' :: cs => (whole? cs).map fun ds => -(Text.Numeral.value 10 ds : Int)
    | '+' :: cs => (whole? cs).map fun ds => (Text.Numeral.value 10 ds : Int)
    | cs => (whole? cs).map fun ds => (Text.Numeral.value 10 ds : Int)
  n.filter Word.fitsSigned

def unsigned (cs : List Char) : List Char :=
  match cs with
  | '+' :: cs => cs
  | '-' :: cs => cs
  | cs => cs

def isExponentMark (c : Char) : Bool := c == 'e' || c == 'E'

/-- A power of ten behind its letter, which may have a sign. -/
def power? (cs : List Char) : Option Int :=
  let read (sign : Int) (cs : List Char) : Option Int :=
    (digits? Text.Numeral.digit? cs).map fun ds => sign * Text.Numeral.value 10 ds
  match cs with
  | [] => some 0
  | _ :: '-' :: cs => read (-1) cs
  | _ :: '+' :: cs => read 1 cs
  | _ :: cs => read 1 cs

/-- The parts of a float without its sign: a fraction or a power of ten makes it one. -/
def float? (cs : List Char) : Option Json.Numeral := do
  let body := cs.takeWhile (!isExponentMark ·)
  let power := cs.dropWhile (!isExponentMark ·)
  let whole ← whole? (body.takeWhile (· != '.'))
  let exponent ← power? power
  match body.dropWhile (· != '.') with
  | [] => if power.isEmpty then none else some ⟨false, whole, [], some exponent⟩
  | _ :: fraction =>
    return ⟨false, whole, ← digits? Text.Numeral.digit? fraction, some exponent⟩

/-- Whether a text is a float. One that is past the greatest is refused, unless it is negative. -/
def isFloat (cs : List Char) : Bool :=
  let body := unsigned cs
  if body == "inf".toList || body == "nan".toList then true
  else
    match float? body with
    | none => false
    | some n =>
      cs.head? == some '-' ||
        (Decimal.ofDigits? false n.whole n.fraction (n.exponent.getD 0)).isSome

def pair? : List Char → Option (Nat × List Char)
  | a :: b :: cs => do
    return (10 * (← Text.Numeral.digit? a) + (← Text.Numeral.digit? b), cs)
  | _ => none

def mark? (mark : Char) : List Char → Option (List Char)
  | c :: cs => if c == mark then some cs else none
  | [] => none

def date? (cs : List Char) : Option (List Char) := do
  let (century, cs) ← pair? cs
  let (year, cs) ← pair? cs
  let (month, cs) ← pair? (← mark? '-' cs)
  let (day, cs) ← pair? (← mark? '-' cs)
  if (Calendar.Date.mk (100 * century + year) month day).isValid then some cs else none

/-- Takes a time of day, which may be a leap second. -/
def time? (cs : List Char) : Option (List Char) := do
  let (hour, cs) ← pair? cs
  let (minute, cs) ← pair? (← mark? ':' cs)
  let (second, cs) ← pair? (← mark? ':' cs)
  if 23 < hour || 59 < minute || 60 < second then none
  match cs with
  | '.' :: cs =>
    match Text.Numeral.takeDigits cs with
    | ([], _) => none
    | (_, rest) => some rest
  | cs => some cs

def isOffset : List Char → Bool
  | [] => true
  | c :: cs =>
    if c == 'Z' || c == 'z' then cs.isEmpty
    else if c == '+' || c == '-' then
      match pair? cs with
      | some (hour, ':' :: cs) =>
        match pair? cs with
        | some (minute, []) => hour ≤ 23 && minute ≤ 59
        | _ => false
      | _ => false
    else false

/-- Whether a text is a date, a time, or a date with a time and perhaps an offset. -/
def isDate (cs : List Char) : Bool :=
  match date? cs with
  | some [] => true
  | some (c :: rest) => (c == 'T' || c == 't' || c == ' ') && ((time? rest).map isOffset).getD false
  | none => time? cs == some []

def ofChars? (cs : List Char) : Option Toml :=
  if cs == "true".toList then some (.bool true)
  else if cs == "false".toList then some (.bool false)
  else
    match int? cs with
    | some n => some (.int n)
    | none => if isFloat cs then some .float else if isDate cs then some .date else none

def isScalarChar (c : Char) : Bool :=
  c.isAlphanum || c == '+' || c == '-' || c == '_' || c == '.' || c == ':'

/-- Splits off a scalar. A blank may stand between a date and a time. -/
def take (cs : List Char) : List Char × List Char :=
  let (scalar, rest) := cs.span isScalarChar
  match rest with
  | ' ' :: d :: more =>
    if date? scalar == some [] && d.isDigit then
      let (time, rest) := (d :: more).span isScalarChar
      (scalar ++ ' ' :: time, rest)
    else (scalar, rest)
  | _ => (scalar, rest)

end RecordLedger.Toml.Scalar
