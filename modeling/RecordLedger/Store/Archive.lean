import RecordLedger.Json.Printer
import RecordLedger.Json.Reader
import RecordLedger.Store.Basic

/-!
Archives: a whole store as one JSON text, rows as arrays of their columns. The text of a store reads
back as that store.
-/

namespace RecordLedger.Store

def VersionRow.toJson (r : VersionRow) : Json :=
  .array [.int r.sequence, .string r.id, .string r.tag, .string r.payload, .int r.timestamp]

def VersionRow.ofJson? : Json → Option VersionRow
  | .array [.int sequence, .string id, .string tag, .string payload, .int timestamp] =>
    some ⟨sequence, id, tag, payload, timestamp⟩
  | _ => none

def IndexRow.toJson (r : IndexRow) : Json := .array [.int r.sequence, .string r.id, .string r.tag]

def IndexRow.ofJson? : Json → Option IndexRow
  | .array [.int sequence, .string id, .string tag] => some ⟨sequence, id, tag⟩
  | _ => none

def toJson (s : Store) : Json :=
  .ofMembers
    [("versions", .array (s.versions.map VersionRow.toJson)),
      ("index", .array (s.index.map IndexRow.toJson)),
      ("last_version", .int s.lastVersion),
      ("last_index", .int s.lastIndex)]

def ofJson? (v : Json) : Option Store := do
  match v.get? "versions", v.get? "index", v.get? "last_version", v.get? "last_index" with
  | some (.array versions), some (.array index), some (.int lastVersion), some (.int lastIndex) =>
    return ⟨← versions.mapM VersionRow.ofJson?, ← index.mapM IndexRow.ofJson?, lastVersion,
      lastIndex⟩
  | _, _, _, _ => none

def archive (s : Store) : String := s.toJson.compact

def ofArchive? (text : String) : Option Store := (Json.ofText? text).bind ofJson?

end RecordLedger.Store
