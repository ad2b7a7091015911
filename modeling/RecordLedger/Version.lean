import RecordLedger.Json.Printer
import RecordLedger.Json.Reader
import RecordLedger.Malformed

/-!
Versions: immutable entries of a record's history. A version holds the JSON text of a value; the
text `{}` marks a deletion. What the ledger knows about a value besides the value itself is its
node.
-/

namespace RecordLedger

/-- The payload of a deletion. -/
def tombstone : String := "\x7b\x7d"

/-- Only the canonical text marks a deletion. -/
def isTombstone (payload : String) : Bool := payload == tombstone

/-- One stored version. Its sequence number orders versions of all records by insertion. -/
structure Version where
  sequence : Nat
  id : RecordId
  tag : Tag
  payload : String
  timestamp : Instant
deriving DecidableEq

namespace Version

def isTombstone (v : Version) : Bool := RecordLedger.isTombstone v.payload

/-- Reads a version from a record of its five fields. -/
def ofForm? (f : Json.Form) : Option Version := do
  let fields ← f.fields? ["sequence", "id", "data_type", "payload", "timestamp"]
  match fields with
  | [some sequence, some id, some tag, some payload, some timestamp] =>
    return {
      sequence := ← sequence.nat64?
      id := ← RecordId.ofText? (← id.string?)
      tag := ← (Tag.read (← tag.string?)).toOption
      payload := ← payload.string?
      timestamp := ← Instant.ofMicros? (← timestamp.int64?) }
  | _ => none

end Version

structure Node where
  id : Option RecordId
  sequence : Nat
  created : Instant
  modified : Instant
deriving DecidableEq

namespace Node

def unstored : Node := ⟨none, 0, Instant.epoch, Instant.epoch⟩

/-- The node of a stored version of a record created at `created`. -/
def ofVersion (v : Version) (created : Instant) : Node :=
  ⟨some v.id, v.sequence, created, v.timestamp⟩

/-- The id field of a node may be absent or null. -/
def idField? : Option Json.Form → Option (Option RecordId)
  | none => some none
  | some .null => some none
  | some f => (f.string?.bind RecordId.ofText?).map some

/-- Reads a node from a record of its fields. -/
def ofForm? (f : Json.Form) : Option Node := do
  let fields ← f.fields? ["id", "sequence", "created", "modified"]
  match fields with
  | [id, some sequence, some created, some modified] =>
    return {
      id := ← idField? id
      sequence := ← sequence.nat64?
      created := ← Instant.ofMicros? (← created.int64?)
      modified := ← Instant.ofMicros? (← modified.int64?) }
  | _ => none

end Node
end RecordLedger
