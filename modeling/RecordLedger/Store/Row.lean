import RecordLedger.Store.Error
import RecordLedger.Version

/-!
Rows of the two relations, as stored and as read. A stored row holds plain texts and integers; every
read decodes them again, so a row that was not written through this library can turn out corrupt. A
timestamp past the 64-bit range is held as a floating-point number, which no reader takes.
-/

namespace RecordLedger.Store

structure VersionRow where
  sequence : Int
  id : String
  tag : String
  payload : String
  timestamp : Int
deriving DecidableEq, Repr

structure IndexRow where
  sequence : Int
  id : String
  tag : String
deriving DecidableEq, Repr

/-- A decoded row of the index. Its sequence number fixes the record's place on the pages. -/
structure IndexEntry where
  sequence : Nat
  id : RecordId
  tag : Tag
deriving DecidableEq

/-- How many index rows of one tag lie below and above a sequence number. -/
structure Window where
  before : Nat
  after : Nat
deriving DecidableEq, Repr

structure Stats where
  versionCount : Nat
  indexCount : Nat
  maxSequence : Nat
deriving DecidableEq, Repr

/-- Bytes of a length in a stored row, seven bits to a byte. -/
def lengthBytes (n : Nat) : Nat :=
  if n < 128 then 1 else if n < 16384 then 2 else if n < 2097152 then 3
  else if n < 268435456 then 4 else 5

/-- Bytes of a number in a stored row; zero and one take none. -/
def numberBytes (n : Int) : Nat :=
  let within (bound : Int) : Bool := decide (-bound ≤ n) && decide (n < bound)
  if n == 0 || n == 1 then 0 else if within 128 then 1 else if within 32768 then 2
  else if within 8388608 then 3 else if within 2147483648 then 4
  else if within 140737488355328 then 6 else 8

/-- Bytes of a text in a stored row, behind a length that counts it twice. -/
def textBytes (s : String) : Nat := s.utf8ByteSize + lengthBytes (2 * s.utf8ByteSize + 13)

/-- Bytes of a stored row. The number of its columns, that of the sequence number and that of the
timestamp take one byte each; the sequence number itself is the key of the row and no part of it. -/
def VersionRow.bytes (r : VersionRow) : Nat :=
  3 + textBytes r.id + textBytes r.tag + textBytes r.payload + numberBytes r.timestamp

/-- The most bytes of a row, of a text that a statement is given, and of a statement. -/
def maxBytes : Nat := 1000000000

/-- The most bytes of a database, in pages of the greatest size. Every row takes some of them, so no
relation has more rows. -/
def maxRows : Nat := 4294967294 * 65536

/-- Whether there is place for a row: among so many others, and for its own bytes. -/
def VersionRow.fitsAmong (r : VersionRow) (count : Nat) : Bool :=
  decide (count < maxRows) && decide (r.bytes ≤ maxBytes)

/-- What a timestamp becomes that would pass the greatest 64-bit integer. -/
def pastLastTimestamp : Int := 9223372036854775808

def readTimestamp (n : Int) : Except Error Instant :=
  match Instant.ofMicros? n with
  | some t => .ok t
  | none => .error .columnType

def readId (sequence : Int) (text : String) : Except Error RecordId :=
  (RecordId.parse text).mapError fun fault => .corruptRow sequence fault.message

def readTag (sequence : Int) (text : String) : Except Error Tag :=
  (Tag.parse text).mapError fun fault => .corruptRow sequence fault.message

/-- A row whose columns have been read but not decoded. -/
structure Fetched where
  row : VersionRow
  timestamp : Instant

def VersionRow.fetch (r : VersionRow) : Except Error Fetched :=
  (readTimestamp r.timestamp).map fun t => ⟨r, t⟩

/-- Decodes the id before the tag. -/
def Fetched.decode (f : Fetched) : Except Error Version := do
  let id ← readId f.row.sequence f.row.id
  let tag ← readTag f.row.sequence f.row.tag
  return ⟨Word.unsigned f.row.sequence, id, tag, f.row.payload, f.timestamp⟩

/-- All rows are fetched before the first one is decoded. -/
def readVersions (rows : List VersionRow) : Except Error (List Version) := do
  let fetched ← rows.mapM VersionRow.fetch
  fetched.mapM Fetched.decode

def readVersion? : Option VersionRow → Except Error (Option Version)
  | none => .ok none
  | some r => do return some (← (← r.fetch).decode)

def IndexRow.decode (r : IndexRow) : Except Error IndexEntry := do
  let id ← readId r.sequence r.id
  let tag ← readTag r.sequence r.tag
  return ⟨Word.unsigned r.sequence, id, tag⟩

end RecordLedger.Store
