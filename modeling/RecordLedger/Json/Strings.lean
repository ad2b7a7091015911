import RecordLedger.Json.Token

/-!
What the pieces of a string stand for, and how a text is written between quotes. Code units of the
surrogate range stand for a character only as a pair; written text escapes the quote, the backslash
and control characters, and nothing else.
-/

namespace RecordLedger.Json.Piece

def isHighSurrogate (n : Nat) : Bool := decide (0xD800 ≤ n) && decide (n < 0xDC00)
def isLowSurrogate (n : Nat) : Bool := decide (0xDC00 ≤ n) && decide (n < 0xE000)

/-- The text of the pieces; a surrogate without its partner makes it fail. -/
def text? : List Piece → Option (List Char)
  | [] => some []
  | .char c :: rest => (text? rest).map (c :: ·)
  | .unit n :: rest =>
    if isLowSurrogate n then none
    else if isHighSurrogate n then
      match rest with
      | .unit m :: rest =>
        if isLowSurrogate m then
          (text? rest).map (Char.ofNat (0x10000 + (n - 0xD800) * 0x400 + (m - 0xDC00)) :: ·)
        else none
      | _ => none
    else (text? rest).map (Char.ofNat n :: ·)

def letter? (c : Char) : Option Char :=
  if c == '\x08' then some 'b'
  else if c == '\t' then some 't'
  else if c == '\n' then some 'n'
  else if c == '\x0c' then some 'f'
  else if c == '\r' then some 'r'
  else none

/-- A control character without a letter of its own is written as a code unit. -/
def ofChar (c : Char) : Piece :=
  if c.toNat < 32 && (letter? c).isNone then .unit c.toNat else .char c

def ofString (s : String) : List Piece := s.toList.map ofChar

def string? (pieces : List Piece) : Option String := (text? pieces).map String.ofList

def spelling : Piece → List Char
  | .char c =>
    if c == '"' || c == '\\' then ['\\', c]
    else
      match letter? c with
      | some l => ['\\', l]
      | none => [c]
  | .unit n =>
    ['\\', 'u', Text.Hex.digitChar (n / 4096), Text.Hex.digitChar (n / 256 % 16),
      Text.Hex.digitChar (n / 16 % 16), Text.Hex.digitChar (n % 16)]

end RecordLedger.Json.Piece
