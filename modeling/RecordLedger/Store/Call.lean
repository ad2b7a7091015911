import RecordLedger.Store.Query

/-!
Calls on a store as values, each with the type of its answer. Whatever answers all calls is a
backend, so a ledger works over the store itself and over anything put in front of it.
-/

namespace RecordLedger.Store

inductive Call
  | insertVersion (id : RecordId) (tag : Tag) (payload : String)
  | latestVersion (id : RecordId) (tag : Tag)
  | versionAt (id : RecordId) (tag : Tag) (at_ : Instant)
  | versions (id : RecordId)
  | earliestTimestamp (id : RecordId)
  | tagOf (id : RecordId)
  | latestVersionsIn (ids : List RecordId)
  | query (sql : String) (args : List Json)
  | upsertIndex (id : RecordId) (tag : Tag)
  | removeIndex (id : RecordId)
  | indexEntry (id : RecordId) (tag : Tag)
  | indexCount (tag : Tag)
  | indexMaxSequence (tag : Tag)
  | indexWindow (tag : Tag) (anchor : Nat)
  | indexIdsBefore (tag : Tag) (anchor limit : Nat)
  | unindexedLive
  | staleIndexRows
  | indexIfLive (id : RecordId) (tag : Tag)
  | unindexIfDead (id : RecordId)
  | stats

abbrev Call.Answer : Call → Type
  | .insertVersion .. => Version
  | .latestVersion .. => Option Version
  | .versionAt .. => Option Version
  | .versions _ => List Version
  | .earliestTimestamp _ => Option Instant
  | .tagOf _ => Option Tag
  | .latestVersionsIn _ => List Version
  | .query .. => List Version
  | .upsertIndex .. => Bool
  | .removeIndex _ => Bool
  | .indexEntry .. => Option IndexEntry
  | .indexCount _ => Nat
  | .indexMaxSequence _ => Option Nat
  | .indexWindow .. => Window
  | .indexIdsBefore .. => List RecordId
  | .unindexedLive => List (RecordId × Tag)
  | .staleIndexRows => List IndexEntry
  | .indexIfLive .. => Bool
  | .unindexIfDead _ => Bool
  | .stats => Stats

/-- Answers every call, or fails, and goes on to the next state. -/
abbrev Backend (σ : Type) := (c : Call) → σ → Except Error c.Answer × σ

def answer (now : Instant) : Backend Store
  | .insertVersion id tag payload, s => s.insertVersion now id tag payload
  | .latestVersion id tag, s => (s.latestVersion id tag, s)
  | .versionAt id tag at_, s => (s.versionAt id tag at_, s)
  | .versions id, s => (s.versionsOf id, s)
  | .earliestTimestamp id, s => (s.earliestTimestamp id, s)
  | .tagOf id, s => (s.tagOf id, s)
  | .latestVersionsIn ids, s => (s.latestVersionsIn ids, s)
  | .query sql args, s => s.query sql args
  | .upsertIndex id tag, s => s.upsertIndex id tag
  | .removeIndex id, s => s.removeIndex id
  | .indexEntry id tag, s => (s.indexEntry id tag, s)
  | .indexCount tag, s => (.ok (s.indexCount tag), s)
  | .indexMaxSequence tag, s => (.ok (s.indexMaxSequence tag), s)
  | .indexWindow tag anchor, s => (.ok (s.indexWindow tag anchor), s)
  | .indexIdsBefore tag anchor limit, s => (s.indexIdsBefore tag anchor limit, s)
  | .unindexedLive, s => (s.unindexedLive, s)
  | .staleIndexRows, s => (s.staleIndexRows, s)
  | .indexIfLive id tag, s => s.indexIfLive id tag
  | .unindexIfDead id, s => s.unindexIfDead id
  | .stats, s => (.ok s.stats, s)

end RecordLedger.Store
