import RecordLedger.Ledger.Action

/-!
Changes of a ledger. Each appends one version and then brings the index in line with it: a record is
indexed exactly while its latest version is live. When the second step fails, the version stays.
-/

namespace RecordLedger.Ledger

/-- A value about to be written. Without an id the ledger gives it one; a value that cannot be
encoded has a reason in place of its payload. -/
structure Draft where
  id : Option RecordId
  tag : Tag
  payload : Except String String

/-- Brings the index in line with a version that was just appended. -/
def syncIndex (b : Store.Backend σ) (v : Version) : Action σ Unit :=
  if v.isTombstone then do
    let _ ← call b (.removeIndex v.id)
  else do
    let _ ← call b (.upsertIndex v.id v.tag)

def append (b : Store.Backend σ) (id : RecordId) (tag : Tag) (payload : String) :
    Action σ Version := do
  let v ← call b (.insertVersion id tag payload)
  syncIndex b v
  return v

/-- Appends a version of a value. An id keeps the tag of its first version. -/
def write (b : Store.Backend σ) (fresh : RecordId) (d : Draft) : Action σ Version := do
  let id := d.id.getD fresh
  match ← call b (.tagOf id) with
  | some first => if first ≠ d.tag then throw (.otherTag id first d.tag)
  | none => pure ()
  match d.payload with
  | .error reason => throw (.unencodable reason)
  | .ok payload => append b id d.tag payload

/-- Appends a deletion of a record that has a version under the tag. -/
def delete (b : Store.Backend σ) (id : RecordId) (tag : Tag) : Action σ Version := do
  match ← call b (.latestVersion id tag) with
  | none => throw (.missing (.record tag id))
  | some _ => append b id tag tombstone

/-- Appends the payload of the version with exactly a timestamp. History is never rewound. -/
def restore (b : Store.Backend σ) (id : RecordId) (tag : Tag) (at_ : Instant) :
    Action σ Version := do
  match ← call b (.versionAt id tag at_) with
  | none => throw (.missing (.versionAt tag id at_))
  | some v => append b id tag v.payload

end RecordLedger.Ledger
