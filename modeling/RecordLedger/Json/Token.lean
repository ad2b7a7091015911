import RecordLedger.Text.Hex
import RecordLedger.Text.Numeral

/-!
The tokens of JSON text. A numeral keeps its digits and a string its escaped code units, so that a
reader of tokens can still refuse a number or a string that it cannot represent.
-/

namespace RecordLedger.Json

structure Numeral where
  negative : Bool
  whole : List Nat
  fraction : List Nat
  exponent : Option Int
deriving DecidableEq, Repr

/-- A part of a string: a character, or a code unit that was written as four digits. -/
inductive Piece
  | char (c : Char)
  | unit (n : Nat)
deriving DecidableEq, Repr

inductive Token
  | null
  | bool (b : Bool)
  | number (n : Numeral)
  | string (pieces : List Piece)
  | beginArray
  | endArray
  | beginObject
  | endObject
  | comma
  | colon
deriving DecidableEq, Repr

namespace Token

/-- The blanks between tokens: space, tab, line feed and carriage return. -/
def isSpace (c : Char) : Bool := c == ' ' || c == '\t' || c == '\n' || c == '\r'

def unescape? : Char → Option Char
  | '"' => some '"'
  | '\\' => some '\\'
  | '/' => some '/'
  | 'b' => some '\x08'
  | 'f' => some '\x0c'
  | 'n' => some '\n'
  | 'r' => some '\r'
  | 't' => some '\t'
  | _ => none

def unit? (a b c d : Char) : Option Nat := do
  return Text.Numeral.value 16 [← Text.Hex.digit? a, ← Text.Hex.digit? b, ← Text.Hex.digit? c,
    ← Text.Hex.digit? d]

def readString : List Char → Option (List Piece × List Char)
  | [] => none
  | '"' :: cs => some ([], cs)
  | '\\' :: 'u' :: a :: b :: c :: d :: cs =>
    match unit? a b c d, readString cs with
    | some n, some (pieces, rest) => some (.unit n :: pieces, rest)
    | _, _ => none
  | '\\' :: e :: cs =>
    match unescape? e, readString cs with
    | some c, some (pieces, rest) => some (.char c :: pieces, rest)
    | _, _ => none
  | c :: cs =>
    if c.toNat < 32 || c == '\\' then none
    else
      match readString cs with
      | some (pieces, rest) => some (.char c :: pieces, rest)
      | none => none

def readFraction : List Char → Option (List Nat × List Char)
  | '.' :: cs =>
    match Text.Numeral.takeDigits cs with
    | ([], _) => none
    | (ds, rest) => some (ds, rest)
  | cs => some ([], cs)

def readExponentDigits (sign : Int) (cs : List Char) : Option (Option Int × List Char) :=
  match Text.Numeral.takeDigits cs with
  | ([], _) => none
  | (ds, rest) => some (some (sign * Text.Numeral.value 10 ds), rest)

def readExponent : List Char → Option (Option Int × List Char)
  | c :: cs =>
    if c == 'e' || c == 'E' then
      match cs with
      | '+' :: cs => readExponentDigits 1 cs
      | '-' :: cs => readExponentDigits (-1) cs
      | cs => readExponentDigits 1 cs
    else some (none, c :: cs)
  | [] => some (none, [])

/-- Reads a number without its sign. A leading zero stands alone before the point. -/
def readMagnitude (negative : Bool) (cs : List Char) : Option (Numeral × List Char) :=
  match Text.Numeral.takeDigits cs with
  | ([], _) => none
  | (0 :: _ :: _, _) => none
  | (whole, rest) =>
    match readFraction rest with
    | none => none
    | some (fraction, rest) =>
      match readExponent rest with
      | none => none
      | some (exponent, rest) => some (⟨negative, whole, fraction, exponent⟩, rest)

/-- Reads the token at the front of a text that does not start with a blank. -/
def next? : List Char → Option (Token × List Char)
  | [] => none
  | '[' :: cs => some (.beginArray, cs)
  | ']' :: cs => some (.endArray, cs)
  | '\x7b' :: cs => some (.beginObject, cs)
  | '\x7d' :: cs => some (.endObject, cs)
  | ',' :: cs => some (.comma, cs)
  | ':' :: cs => some (.colon, cs)
  | '"' :: cs => (readString cs).map fun (pieces, rest) => (.string pieces, rest)
  | 'n' :: 'u' :: 'l' :: 'l' :: cs => some (.null, cs)
  | 't' :: 'r' :: 'u' :: 'e' :: cs => some (.bool true, cs)
  | 'f' :: 'a' :: 'l' :: 's' :: 'e' :: cs => some (.bool false, cs)
  | '-' :: cs => (readMagnitude true cs).map fun (n, rest) => (.number n, rest)
  | cs => (readMagnitude false cs).map fun (n, rest) => (.number n, rest)

/-- Splits a text into at most `fuel` tokens; every token takes a character. -/
def lexWith : Nat → List Char → Option (List Token)
  | 0, _ => none
  | fuel + 1, cs =>
    match cs.dropWhile isSpace with
    | [] => some []
    | c :: cs =>
      match next? (c :: cs) with
      | none => none
      | some (token, rest) => (lexWith fuel rest).map (token :: ·)

def lex (cs : List Char) : Option (List Token) := lexWith (cs.length + 1) cs

end Token
end RecordLedger.Json
