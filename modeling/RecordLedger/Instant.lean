import RecordLedger.Calendar
import RecordLedger.Text.Blank
import RecordLedger.Text.Numeral
import RecordLedger.Word

/-!
Instants: 64-bit counts of microseconds from the start of 1970. An instant is written as an RFC 3339
date and time in UTC and read from such a text, with any offset, or from a plain count.
-/

namespace RecordLedger

structure Instant where
  micros : Int
  fits : Word.fitsSigned micros = true
deriving DecidableEq

namespace Instant

def ofMicros? (n : Int) : Option Instant :=
  if h : Word.fitsSigned n = true then some ⟨n, h⟩ else none

def epoch : Instant := ⟨0, rfl⟩

instance : Inhabited Instant := ⟨epoch⟩

def microsPerSecond : Int := 1000000
def microsPerDay : Int := 86400000000

/-- The first and the last instant that have a calendar text of their own. -/
def firstDated : Int := (Calendar.Date.mk (-262143) 1 1).toDays * microsPerDay
def lastDated : Int := (Calendar.Date.mk 262143 1 1).toDays * microsPerDay - 1

/-- Instants outside the calendar's range show as the epoch. -/
def dated (t : Instant) : Instant :=
  if firstDated ≤ t.micros ∧ t.micros ≤ lastDated then t else epoch

/-- Four digits; years outside them show their sign. -/
def yearText (y : Int) : List Char :=
  if 0 ≤ y ∧ y ≤ 9999 then Text.Numeral.padded 4 y.toNat
  else (if y < 0 then '-' else '+') :: Text.Numeral.padded 4 y.natAbs

/-- The text of an instant of the calendar's range, with six digits of the second. -/
def calendarText (micros : Int) : List Char :=
  let date := Calendar.Date.ofDays (micros / microsPerDay)
  let time := (micros % microsPerDay).toNat
  let two := Text.Numeral.padded 2
  yearText date.year ++ ['-'] ++ two date.month ++ ['-'] ++ two date.day ++ ['T'] ++
    two (time / 3600000000) ++ [':'] ++ two (time / 60000000 % 60) ++ [':'] ++
    two (time / 1000000 % 60) ++ ['.'] ++ Text.Numeral.padded 6 (time % 1000000) ++ ['Z']

def text (t : Instant) : String := String.ofList (calendarText t.dated.micros)

inductive Fault
  | tooShort
  | invalid
  | outOfRange
  | trailing
deriving DecidableEq, Repr

def Fault.message : Fault → String
  | .tooShort => "premature end of input"
  | .invalid => "input contains invalid characters"
  | .outOfRange => "input is out of range"
  | .trailing => "trailing input"

def readDigits : Nat → Nat → List Char → Except Fault (Nat × List Char)
  | 0, n, cs => .ok (n, cs)
  | _ + 1, _, [] => .error .invalid
  | count + 1, n, c :: cs =>
    match Text.Numeral.digit? c with
    | some d => readDigits count (10 * n + d) cs
    | none => .error .invalid

def readMark (isMark : Char → Bool) : List Char → Except Fault (List Char)
  | [] => .error .invalid
  | c :: cs => if isMark c then .ok cs else .error .invalid

/-- Reads the digits of a fraction of a second as nanoseconds; those past the ninth are dropped. -/
def readNanos : List Char → Except Fault (Nat × List Char)
  | '.' :: cs =>
    match Text.Numeral.takeDigits cs with
    | ([], []) => .error .tooShort
    | ([], _ :: _) => .error .invalid
    | (ds, rest) =>
      let nine := (ds ++ List.replicate (9 - ds.length) 0).take 9
      .ok (Text.Numeral.value 10 nine, rest)
  | cs => .ok (0, cs)

/-- Reads two digits that the end of the text may cut off. -/
def readPair : List Char → Except Fault (Nat × Nat × List Char)
  | [] => .error .tooShort
  | [c] => if c.toNat < 128 then .error .tooShort else .error .invalid
  | a :: b :: cs =>
    match Text.Numeral.digit? a, Text.Numeral.digit? b with
    | some x, some y => .ok (x, y, cs)
    | _, _ => .error .invalid

/-- Reads hours and minutes of an offset after its sign, in seconds. -/
def readOffsetTime (cs : List Char) : Except Fault (Int × List Char) := do
  let (h, h', cs) ← readPair cs
  let cs ← match cs with
    | [] => .error .tooShort
    | ':' :: cs => .ok cs
    | _ :: _ => .error .invalid
  let (m, m', cs) ← readPair cs
  if 6 ≤ m then .error .outOfRange
  else .ok ((10 * h + h') * 3600 + (10 * m + m') * 60, cs)

/-- Reads the offset from UTC in seconds. The minus sign may be the mathematical one. -/
def readOffset : List Char → Except Fault (Int × List Char)
  | [] => .error .tooShort
  | c :: cs =>
    if c == 'Z' || c == 'z' then .ok (0, cs)
    else if c == '+' then readOffsetTime cs
    else if c == '-' || c == '\u2212' then do
      let (n, cs) ← readOffsetTime cs
      .ok (-n, cs)
    else .error .invalid

/-- Reads an RFC 3339 date and time as microseconds from the epoch, rounded down. The second 60 is
the second after 59. -/
def readCalendar (cs : List Char) : Except Fault Int := do
  if (String.ofList cs).utf8ByteSize < 19 then throw .tooShort
  let (year, cs) ← readDigits 4 0 cs
  let cs ← readMark (· == '-') cs
  let (month, cs) ← readDigits 2 0 cs
  let cs ← readMark (· == '-') cs
  let (day, cs) ← readDigits 2 0 cs
  let date : Calendar.Date := ⟨year, month, day⟩
  if !date.isValid then throw .outOfRange
  let cs ← readMark (fun c => c == 'T' || c == 't' || c == ' ') cs
  let (hour, cs) ← readDigits 2 0 cs
  let cs ← readMark (· == ':') cs
  let (minute, cs) ← readDigits 2 0 cs
  let cs ← readMark (· == ':') cs
  let (second, cs) ← readDigits 2 0 cs
  let (nanos, cs) ← readNanos cs
  if 23 < hour || 59 < minute || 60 < second then throw .outOfRange
  let (offset, cs) ← readOffset cs
  if !cs.isEmpty then throw .trailing
  if 86400 ≤ offset.natAbs then throw .outOfRange
  let seconds : Int := date.toDays * 86400 + hour * 3600 + minute * 60 + second - offset
  return seconds * microsPerSecond + nanos / 1000

/-- Reads a plain count of microseconds or a date and time, with blanks around it. -/
def read (s : String) : Except Fault Instant :=
  let cs := Text.trim s.toList
  match (Text.Numeral.int? cs).bind ofMicros? with
  | some t => .ok t
  | none => do
    match ofMicros? (← readCalendar cs) with
    | some t => .ok t
    | none => .error .outOfRange

/-- The text that shows an instant as a plain count. -/
def describe (t : Instant) : String :=
  "Timestamp(" ++ String.ofList (Text.Numeral.ofInt t.micros) ++ "us)"

end Instant
end RecordLedger
