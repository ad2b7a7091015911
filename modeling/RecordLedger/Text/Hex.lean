/-!
Hexadecimal text of octets. Writing uses lower-case digits, reading takes either case.
-/

namespace RecordLedger.Text.Hex

def digitChar (n : Nat) : Char := if n < 10 then Char.ofNat (48 + n) else Char.ofNat (87 + n)

def digit? (c : Char) : Option Nat :=
  if '0' ≤ c && c ≤ '9' then some (c.toNat - 48)
  else if 'a' ≤ c && c ≤ 'f' then some (c.toNat - 87)
  else if 'A' ≤ c && c ≤ 'F' then some (c.toNat - 55)
  else none

def isDigit (c : Char) : Bool := (digit? c).isSome

/-- Two digits for each octet, the upper half first. -/
def encode : List UInt8 → List Char
  | [] => []
  | b :: bs => digitChar (b.toNat / 16) :: digitChar (b.toNat % 16) :: encode bs

/-- Refuses an odd number of characters and every character that is not a digit. -/
def decode? : List Char → Option (List UInt8)
  | [] => some []
  | [_] => none
  | a :: b :: cs => do
    let upper ← digit? a
    let lower ← digit? b
    let rest ← decode? cs
    return UInt8.ofNat (16 * upper + lower) :: rest

def ofNat (n : Nat) : List Char := go 16 n []
where
  go : Nat → Nat → List Char → List Char
    | 0, _, rest => rest
    | fuel + 1, n, rest =>
      if n < 16 then digitChar n :: rest else go fuel (n / 16) (digitChar (n % 16) :: rest)

/-- Why a text is not hexadecimal; positions count octets. -/
inductive Fault
  | odd
  | digit (octet : UInt8) (position : Nat)
deriving DecidableEq, Repr

def fault (text : List UInt8) : Fault :=
  if text.length % 2 = 1 then .odd
  else
    match text.zipIdx.find? fun (b, _) => !isDigit (Char.ofNat b.toNat) with
    | some (b, position) => .digit b position
    | none => .odd

end RecordLedger.Text.Hex
