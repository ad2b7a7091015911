import RecordLedger.Collection.Document
import RecordLedger.Ledger.Index

/-!
What commands print: lines of text, or one indented JSON value.
-/

namespace RecordLedger.Command

def lines (ls : List String) : String := String.join (ls.map (· ++ "\n"))

def number (n : Nat) : String := String.ofList (Text.Numeral.ofNat n)

def jsonNumber (n : Nat) : Json := .int n

def yesNo (b : Bool) : String := if b then "yes" else "no"

def idText (d : Document) : String :=
  match d.node.id with
  | some id => id.text
  | none => ""

def idJson (id : RecordId) : Json := .string id.text
def cursorJson (c : Cursor) : Json := .string c.token

/-- A version with its payload as JSON; a payload that is not JSON is shown as a text. -/
def versionJson (v : Version) : Json :=
  .ofMembers
    [("sequence", jsonNumber v.sequence),
      ("id", idJson v.id),
      ("data_type", .string v.tag.text),
      ("timestamp", .string v.timestamp.text),
      ("deleted", .bool v.isTombstone),
      ("payload", (Json.ofText? v.payload).getD (.string v.payload))]

def versionLine (v : Version) : String :=
  "#" ++ number v.sequence ++ " " ++ v.timestamp.text ++ "  " ++ v.tag.text ++ " " ++
    v.id.shortText ++ "  " ++ (if v.isTombstone then "deleted" else v.payload)

def versionsJson (vs : List Version) : Json := .array (vs.map versionJson)

def versionsText (vs : List Version) : String :=
  lines (if vs.isEmpty then ["No versions."] else vs.map versionLine)

def deletedText (v : Version) : String := lines ["✓ Deleted " ++ v.tag.text ++ " " ++ v.id.text]

def restoredText (v : Version) (from_ : Instant) : String :=
  lines
    ["✓ Restored " ++ v.tag.text ++ " " ++ v.id.text ++ " from " ++ from_.text,
      "  New version: sequence " ++ number v.sequence ++ " at " ++ v.timestamp.text]

def writtenText (d : Document) : String :=
  lines
    ["✓ Wrote " ++ d.tag.text ++ " " ++ idText d,
      "  Sequence: " ++ number d.node.sequence,
      "  Modified: " ++ d.node.modified.text]

def currentJson (d : Document) (deleted : Bool) : Json :=
  match d.toJson with
  | .object members => .object (Json.Members.set "deleted" (.bool deleted) members)
  | v => v

def currentText (d : Document) (deleted : Bool) : String :=
  lines
    [d.tag.text ++ " " ++ idText d,
      "  Sequence: " ++ number d.node.sequence,
      "  Created:  " ++ d.node.created.text,
      "  Modified: " ++ d.node.modified.text,
      "  " ++ (if deleted then "deleted" else (Json.object d.body).pretty)]

def pageInfoJson (p : Ledger.PageInfo) : Json :=
  .ofMembers
    [("start_cursor", .ofOption (fun id => cursorJson ⟨id⟩) p.startId),
      ("end_cursor", .ofOption (fun id => cursorJson ⟨id⟩) p.endId),
      ("has_next_page", .bool p.hasNext),
      ("has_previous_page", .bool p.hasPrevious),
      ("total", jsonNumber p.total)]

def pageJson (c : Collection.Connection Document) : Json :=
  .ofMembers
    [("edges", .array (c.edges.map fun e =>
        .ofMembers [("cursor", cursorJson e.cursor), ("node", e.node.toJson)])),
      ("page_info", pageInfoJson c.page)]

def edgeLine (e : Collection.Edge Document) : String :=
  idText e.node ++ "  " ++ e.node.node.modified.text ++ "  " ++ (Json.object e.node.body).compact

/-- The cursor to go on with, if there are older records. -/
def nextPageLines (p : Ledger.PageInfo) : List String :=
  match p.hasPrevious, p.endId with
  | true, some id => ["Next page: --before " ++ (Cursor.mk id).token]
  | _, _ => []

def pageText (tag : Tag) (c : Collection.Connection Document) : String :=
  if c.edges.isEmpty then lines ["No current " ++ tag.text ++ " records."]
  else
    lines <|
      c.edges.map edgeLine ++
        ["", number c.edges.length ++ " of " ++ number c.page.total ++
          " (newer: " ++ yesNo c.page.hasNext ++ ", older: " ++ yesNo c.page.hasPrevious ++ ")"] ++
        nextPageLines c.page

def driftJson (d : Ledger.Drift) : Json :=
  .ofMembers [("id", idJson d.id), ("data_type", .string d.tag.text)]

def reportJson (dryRun : Bool) (r : Ledger.IndexReport) : Json :=
  .ofMembers
    [("dry_run", .bool dryRun),
      ("report",
        .ofMembers
          [("missing", .array (r.missing.map driftJson)),
            ("stale", .array (r.stale.map driftJson))])]

def driftLine (what : String) (d : Ledger.Drift) : String :=
  "  " ++ what ++ " " ++ d.tag.text ++ " " ++ d.id.text

def reportText (dryRun : Bool) (r : Ledger.IndexReport) : String :=
  if r.isConsistent then lines ["✓ Index matches history"]
  else
    lines <|
      r.missing.map (driftLine (if dryRun then "unindexed:" else "indexed:")) ++
        r.stale.map (driftLine (if dryRun then "stale:" else "unindexed:"))

def statsJson (s : Store.Stats) : Json :=
  .ofMembers
    [("version_count", jsonNumber s.versionCount),
      ("index_count", jsonNumber s.indexCount),
      ("max_sequence", jsonNumber s.maxSequence)]

def initJson (config : String) (written : Bool) (database : String) (s : Store.Stats) : Json :=
  .ofMembers
    [("config", .string config),
      ("config_written", .bool written),
      ("database", .string database),
      ("stats", statsJson s)]

def initText (config : String) (written : Bool) (database : String) (s : Store.Stats) : String :=
  lines <|
    ["✓ Initialized ledger at " ++ database] ++
      (if written then ["  Config: " ++ config] else []) ++
      ["  Versions: " ++ number s.versionCount ++ ", current records: " ++ number s.indexCount]

end RecordLedger.Command
