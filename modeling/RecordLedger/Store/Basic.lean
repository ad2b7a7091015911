import RecordLedger.Sort
import RecordLedger.Store.Row

/-!
The store: the history of all versions and the index of current records, with one function for each
call. The latest version of a record is the one with the greatest timestamp and, among equal
timestamps, the greatest sequence number. A sequence number is never given out twice, not even after
its row is gone.
-/

namespace RecordLedger

/-- Both relations, and the greatest sequence number that each has ever used. -/
structure Store where
  versions : List Store.VersionRow
  index : List Store.IndexRow
  lastVersion : Int
  lastIndex : Int
deriving DecidableEq, Repr

namespace Store

def empty : Store := ⟨[], [], 0, 0⟩

instance : Inhabited Store := ⟨empty⟩

/-- The sequence number after `last`, while there is one. -/
def next? (last : Int) : Option Int := if last < Word.maxSigned then some (last + 1) else none

/-- The order of versions: greater timestamps first, then greater sequence numbers. -/
def newestFirst (a b : VersionRow) : Bool :=
  decide (b.timestamp < a.timestamp) ||
    (a.timestamp == b.timestamp && decide (b.sequence ≤ a.sequence))

def bySequence (a b : VersionRow) : Bool := decide (a.sequence ≤ b.sequence)

def rowsOf (s : Store) (id : String) : List VersionRow :=
  Sort.sort newestFirst (s.versions.filter (·.id == id))

def latest? (s : Store) (id : String) : Option VersionRow := (s.rowsOf id).head?

def isLatest (s : Store) (r : VersionRow) : Bool :=
  (s.latest? r.id).map (·.sequence) == some r.sequence

def isIndexed (s : Store) (id : String) : Bool := s.index.any (·.id == id)

def timestampsOf (s : Store) (id : String) : List Int :=
  (s.versions.filter (·.id == id)).map (·.timestamp)

/-- The least timestamp a new version of `id` may have: one more than every earlier one. -/
def earliestNext? (s : Store) (id : String) : Option Int :=
  (s.timestampsOf id).max?.map fun t => min (t + 1) pastLastTimestamp

/-- The timestamp of a new version: the clock reading, unless an earlier version has reached it. -/
def stamp (s : Store) (id : String) (now : Instant) : Int :=
  max now.micros ((s.earliestNext? id).getD now.micros)

def takes (s : Store) (r : VersionRow) : Bool := r.fitsAmong s.versions.length

/-- Appends a version. A timestamp that cannot be read back is an error after the row was added. -/
def insertVersion (now : Instant) (id : RecordId) (tag : Tag) (payload : String) (s : Store) :
    Except Error Version × Store :=
  match next? s.lastVersion with
  | none => (.error .statement, s)
  | some n =>
    let row : VersionRow := ⟨n, id.text, tag.text, payload, s.stamp id.text now⟩
    if s.takes row then
      let s := { s with versions := s.versions ++ [row], lastVersion := n }
      match readTimestamp row.timestamp with
      | .ok t => (.ok ⟨Word.unsigned n, id, tag, payload, t⟩, s)
      | .error e => (.error e, s)
    else (.error .statement, s)

def latestVersion (s : Store) (id : RecordId) (tag : Tag) : Except Error (Option Version) :=
  let rows := s.versions.filter fun r => r.id == id.text && r.tag == tag.text
  readVersion? (Sort.sort newestFirst rows).head?

def lastFirst (a b : VersionRow) : Bool := decide (b.sequence ≤ a.sequence)

/-- The version with exactly a timestamp; of several, the one inserted last. -/
def versionAt (s : Store) (id : RecordId) (tag : Tag) (at_ : Instant) :
    Except Error (Option Version) :=
  let rows := s.versions.filter fun r =>
    r.id == id.text && r.tag == tag.text && r.timestamp == at_.micros
  readVersion? (Sort.sort lastFirst rows).head?

def versionsOf (s : Store) (id : RecordId) : Except Error (List Version) :=
  readVersions (s.rowsOf id.text)

def earliestTimestamp (s : Store) (id : RecordId) : Except Error (Option Instant) :=
  match (s.timestampsOf id.text).min? with
  | none => .ok none
  | some t => (readTimestamp t).map some

/-- The tag of the version inserted first. -/
def tagOf (s : Store) (id : RecordId) : Except Error (Option Tag) :=
  match (Sort.sort bySequence (s.versions.filter (·.id == id.text))).head? with
  | none => .ok none
  | some r => (readTag r.sequence r.tag).map some

def maxParameters : Nat := 32766

/-- The latest version of each record of a list, in the order of ids. An empty list runs no
statement, a list that needs too many parameters is refused. -/
def latestVersionsIn (s : Store) (ids : List RecordId) : Except Error (List Version) :=
  if maxParameters < ids.length then .error .statement
  else
    let rows := s.versions.filter fun r => ids.any (·.text == r.id) && s.isLatest r
    readVersions (Sort.sort (fun a b => decide (a.id ≤ b.id)) (Sort.sort bySequence rows))

/-- Adds an index row unless the record has one. The number is used up either way. -/
def upsertIndex (id : RecordId) (tag : Tag) (s : Store) : Except Error Bool × Store :=
  match next? s.lastIndex with
  | none => (.error .statement, s)
  | some n =>
    if s.isIndexed id.text then (.ok false, { s with lastIndex := n })
    else (.ok true, { s with index := s.index ++ [⟨n, id.text, tag.text⟩], lastIndex := n })

def removeIndex (id : RecordId) (s : Store) : Except Error Bool × Store :=
  (.ok (s.isIndexed id.text), { s with index := s.index.filter (·.id != id.text) })

def indexRows (s : Store) (tag : Tag) : List IndexRow :=
  Sort.sort (fun a b => decide (b.sequence ≤ a.sequence)) (s.index.filter (·.tag == tag.text))

def indexEntry (s : Store) (id : RecordId) (tag : Tag) : Except Error (Option IndexEntry) :=
  match s.index.find? fun r => r.id == id.text && r.tag == tag.text with
  | none => .ok none
  | some r => r.decode.map some

def indexCount (s : Store) (tag : Tag) : Nat := (s.indexRows tag).length

def indexMaxSequence (s : Store) (tag : Tag) : Option Nat :=
  (s.indexRows tag).head?.map (Word.unsigned ·.sequence)

/-- The anchor is read as a signed number, as the rows' numbers are. -/
def indexWindow (s : Store) (tag : Tag) (anchor : Nat) : Window :=
  let rows := s.indexRows tag
  ⟨rows.countP fun r => decide (r.sequence < Word.signed anchor),
    rows.countP fun r => decide (Word.signed anchor < r.sequence)⟩

/-- Ids below an anchor, newest first. A limit whose signed reading is negative is no limit. -/
def indexIdsBefore (s : Store) (tag : Tag) (anchor limit : Nat) : Except Error (List RecordId) :=
  let rows := (s.indexRows tag).filter fun r => decide (r.sequence < Word.signed anchor)
  let limit := Word.signed limit
  let rows := if limit < 0 then rows else rows.take limit.toNat
  rows.mapM fun r => readId r.sequence r.id

/-- Live records without an index row, in the order of their latest versions. -/
def unindexedLive (s : Store) : Except Error (List (RecordId × Tag)) :=
  let rows := s.versions.filter fun r =>
    s.isLatest r && !isTombstone r.payload && !s.isIndexed r.id
  (Sort.sort bySequence rows).mapM fun r => do
    let id ← readId r.sequence r.id
    let tag ← readTag r.sequence r.tag
    return (id, tag)

/-- Index rows of records without a version or with a deletion as the latest one, in the order of
the index. -/
def staleIndexRows (s : Store) : Except Error (List IndexEntry) :=
  let rows := s.index.filter fun i =>
    !(s.versions.any (·.id == i.id)) || (s.latest? i.id).any (isTombstone ·.payload)
  (Sort.sort (fun a b => decide (a.sequence ≤ b.sequence)) rows).mapM IndexRow.decode

/-- Adds an index row if the record's latest version is live and has the tag. -/
def indexIfLive (id : RecordId) (tag : Tag) (s : Store) : Except Error Bool × Store :=
  let live := s.versions.any fun r =>
    r.id == id.text && r.tag == tag.text && s.isLatest r && !isTombstone r.payload
  if live then s.upsertIndex id tag else (.ok false, s)

/-- Removes the index row of a record whose latest payload is that of a deletion, which is also what
a record without versions counts as. -/
def unindexIfDead (id : RecordId) (s : Store) : Except Error Bool × Store :=
  if isTombstone (((s.latest? id.text).map (·.payload)).getD tombstone) then s.removeIndex id
  else (.ok false, s)

def stats (s : Store) : Stats :=
  ⟨s.versions.length, s.index.length,
    match (Sort.sort bySequence s.versions).getLast? with
    | none => 0
    | some r => Word.unsigned r.sequence⟩

/-- A sequence number for a row that is put in from outside: the given one if it is free, else the
next one. -/
def freeSequence? (used : List Int) (last : Int) : Option Int → Option Int
  | none => next? last
  | some n => if used.contains n then none else some n

def putVersion (sequence : Option Int) (id tag payload : String) (timestamp : Int) (s : Store) :
    Option Int × Store :=
  match freeSequence? (s.versions.map (·.sequence)) s.lastVersion sequence with
  | none => (none, s)
  | some n =>
    (some n, { s with
      versions := s.versions ++ [⟨n, id, tag, payload, timestamp⟩]
      lastVersion := max s.lastVersion n })

/-- An id has at most one index row. -/
def putIndex (sequence : Option Int) (id tag : String) (s : Store) : Option Int × Store :=
  match freeSequence? (s.index.map (·.sequence)) s.lastIndex sequence with
  | none => (none, s)
  | some n =>
    if s.isIndexed id then (none, s)
    else
      (some n, { s with
        index := s.index ++ [⟨n, id, tag⟩]
        lastIndex := max s.lastIndex n })

def describe : String := "SqliteStore \x7b path: None \x7d"

end Store
end RecordLedger
