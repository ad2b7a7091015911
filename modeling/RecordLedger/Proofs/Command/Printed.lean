import RecordLedger.Command.Run
import RecordLedger.Proofs.Json.Indented

/-! What a reader of printed JSON finds in it: the texts of a version, the cursors of a page. -/
namespace RecordLedger

namespace Json

namespace Form

def member? (key : String) : Form → Option Form
  | .object members => (members.find? fun m => Piece.string? m.1 = some key).map (·.2)
  | _ => none

def at? : List String → Form → Option Form
  | [], f => some f
  | key :: keys, f => (f.member? key).bind (at? keys)

def text? (keys : List String) (f : Form) : Option String := (f.at? keys).bind string?

def listed : Form → List Form
  | .array elements => elements
  | f => [f]

end Form

theorem forms_eq_map (vs : List Json) : forms vs = vs.map form := by
  induction vs with
  | nil => rfl
  | cons v vs ih => rw [forms, ih, List.map_cons]

theorem member?_form (key : String) (ms : Members) :
    (object ms).form.member? key = (ms.find? (·.1 = key)).map (·.2.form) := by
  rw [form, Form.member?]
  induction ms with
  | nil => rfl
  | cons m ms ih =>
    obtain ⟨k, v⟩ := m
    rw [memberForms, List.find?_cons, List.find?_cons, Piece.string?_ofString]
    by_cases same : k = key
    · simp [same]
    · simpa [same] using ih

theorem bool_form (b : Bool) : (bool b).form = .bool b := rfl

theorem string?_form (s : String) : (string s).form.string? = some s := Piece.string?_ofString s

end Json

namespace Command

theorem ofText?_printed (json : Json) (text : String) :
    Json.Form.ofText? (inFormat .json json text).toList = some json.form := by
  have line : inFormat .json json text = json.pretty ++ "\n" := by
    simp [inFormat, lines, String.join]
  rw [line, Json.ofText?_lines]

theorem versionJson_eq (v : Version) : versionJson v =
    .object [("data_type", .string v.tag.text), ("deleted", .bool v.isTombstone),
      ("id", .string v.id.text), ("payload", (Json.ofText? v.payload).getD (.string v.payload)),
      ("sequence", jsonNumber v.sequence), ("timestamp", .string v.timestamp.text)] := rfl

structure Names (f : Json.Form) (tag id at_ : String) : Prop where
  tag : f.text? ["data_type"] = some tag
  id : f.text? ["id"] = some id
  at_ : f.text? ["timestamp"] = some at_

theorem versionJson_names (v : Version) :
    Names (versionJson v).form v.tag.text v.id.text v.timestamp.text := by
  rw [versionJson_eq]
  constructor <;>
    simp [Json.Form.text?, Json.Form.at?, Json.member?_form, Json.string?_form]

inductive Prints : Json → List Version → Prop
  | one (v : Version) : Prints (versionJson v) [v]
  | many (vs : List Version) : Prints (versionsJson vs) vs

theorem Prints.listed {json : Json} {vs : List Version} (prints : Prints json vs) :
    json.form.listed = vs.map fun v => (versionJson v).form := by
  cases prints with
  | one v => rw [versionJson_eq]; rfl
  | many =>
    rw [versionsJson, Json.form, Json.forms_eq_map, List.map_map]
    rfl

theorem pageInfoJson_eq (p : Ledger.PageInfo) : pageInfoJson p =
    .object [("end_cursor", .ofOption (fun id => cursorJson ⟨id⟩) p.endId),
      ("has_next_page", .bool p.hasNext), ("has_previous_page", .bool p.hasPrevious),
      ("start_cursor", .ofOption (fun id => cursorJson ⟨id⟩) p.startId),
      ("total", jsonNumber p.total)] := rfl

def edgeJson (e : Collection.Edge Document) : Json :=
  .object [("cursor", cursorJson e.cursor), ("node", e.node.toJson)]

theorem pageJson_eq (c : Collection.Connection Document) : pageJson c =
    .object [("edges", .array (c.edges.map edgeJson)), ("page_info", pageInfoJson c.page)] := rfl

theorem cursorJson_text (c : Cursor) : (cursorJson c).form.string? = some c.token :=
  Json.string?_form c.token

theorem edgeJson_cursor (e : Collection.Edge Document) :
    (edgeJson e).form.text? ["cursor"] = some e.cursor.token := by
  simp [edgeJson, Json.Form.text?, Json.Form.at?, Json.member?_form, cursorJson_text]

theorem pageJson_older (c : Collection.Connection Document) :
    (pageJson c).form.at? ["page_info", "has_previous_page"] = some (.bool c.page.hasPrevious) := by
  rw [pageJson_eq, pageInfoJson_eq]
  simp [Json.Form.at?, Json.member?_form, Json.bool_form]

theorem pageJson_end (c : Collection.Connection Document) :
    (pageJson c).form.text? ["page_info", "end_cursor"] =
      c.page.endId.map fun id => (Cursor.mk id).token := by
  rw [pageJson_eq, pageInfoJson_eq]
  cases c.page.endId with
  | none =>
    simp only [Json.Form.text?, Json.Form.at?, Json.member?_form, Json.ofOption]
    rfl
  | some id =>
    simp [Json.Form.text?, Json.Form.at?, Json.member?_form, Json.ofOption, cursorJson_text]

theorem pageJson_edges (c : Collection.Connection Document) :
    (pageJson c).form.at? ["edges"] = some (.array (c.edges.map fun e => (edgeJson e).form)) := by
  have array : (Json.array (c.edges.map edgeJson)).form =
      .array (c.edges.map fun e => (edgeJson e).form) := by
    rw [Json.form, Json.forms_eq_map, List.map_map]
    rfl
  rw [pageJson_eq]
  simp [Json.Form.at?, Json.member?_form, array]

end Command
end RecordLedger
