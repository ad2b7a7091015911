import RecordLedger.Proofs.Ledger.Session
import RecordLedger.Proofs.Text.Octets

/-! The statement that asks for a record by an argument. The argument is a value and never part of
the text, so it can only be equal to an id or not, and the rows come by their numbers, which is the
order of the timestamps too: the statement shows what the history of the record shows, from its
other end. -/
namespace RecordLedger

namespace Query

def byId : String :=
  "SELECT sequence, id, data_type, payload, timestamp FROM record WHERE id = ?1 ORDER BY sequence"

def byIdPlan : Plan :=
  .select (.scan .history) (some (.compare .eq (.column ⟨1, .text⟩) (.parameter 1)))
    [(.column ⟨0, .integer⟩, false)] none none
    [.column ⟨0, .integer⟩, .column ⟨1, .text⟩, .column ⟨2, .text⟩, .column ⟨3, .text⟩,
      .column ⟨4, .integer⟩]

theorem byId_accepted : violation? byId = none := by decide +kernel

theorem byId_resolved : Store.resolved? byId = some (1, .rows byIdPlan) := by
  have short : ¬ Store.maxBytes < byId.utf8ByteSize := by decide
  have read : ((Statement.ofText? byId).bind fun st => st.directive?.map (st.parameters, ·)) =
      some (1, .rows byIdPlan) := by decide +kernel
  rw [Store.resolved?, if_neg short]
  exact read

end Query

namespace Store

open Query (byIdPlan)

variable {s : Store} {log : List Version}

/-- A text column and a text argument are compared as they are. -/
theorem selects_eq_text (r : VersionRow) (x : String) :
    (Query.Expr.compare .eq (.column ⟨1, .text⟩) (.parameter 1) : Query.Term).selects [.text x]
      r.values = (r.id == x) := by
  have value : (Query.Expr.compare .eq (.column ⟨1, .text⟩) (.parameter 1) : Query.Term).value
      [.text x] r.values = .ofBool? (some (compare r.id x == .eq)) := rfl
  have same : (compare r.id x == .eq) = (r.id == x) := by
    rw [Bool.eq_iff_iff, beq_iff_eq, beq_iff_eq, Std.LawfulEqCmp.compare_eq_iff_eq]
  rw [Query.Expr.selects, value, same]
  cases r.id == x <;> rfl

theorem sorted_values {rows : List VersionRow}
    (increasing : rows.Pairwise fun a b => a.sequence < b.sequence) (args : List Query.Value) :
    Query.sorted args [(.column ⟨0, .integer⟩, false)] (rows.map VersionRow.values) =
      rows.map VersionRow.values := by
  refine Sort.sort_eq_self _ (List.pairwise_map.mpr (increasing.imp fun {a b} less => ?_))
  have order : Query.Value.sortOrder (.int a.sequence) (.int b.sequence) = .lt :=
    Int.compare_eq_lt.mpr less
  simp [Query.mayPrecede, Query.Expr.value, VersionRow.values, order]

theorem rows?_byIdPlan {rows : List VersionRow}
    (contents : s.contents .history = rows.map VersionRow.values)
    (increasing : rows.Pairwise fun a b => a.sequence < b.sequence) (x : String) :
    byIdPlan.rows? s.contents [.text x] =
      some ((rows.filter (·.id == x)).map VersionRow.values) := by
  have chosen : (rows.map VersionRow.values).filter (fun r =>
      (some (.compare .eq (.column ⟨1, .text⟩) (.parameter 1)) : Option Query.Term).all
        (·.selects [.text x] r)) = (rows.filter (·.id == x)).map VersionRow.values := by
    rw [List.filter_map]
    congr 1
    exact List.filter_congr fun r _ => selects_eq_text r x
  simp only [byIdPlan, Query.Plan.rows?, contents, Option.bind_eq_bind, Option.bind_some, chosen,
    sorted_values (increasing.filter _), Query.window?, List.map_map]
  rfl

theorem readRow_values {r : VersionRow} (dated : Word.fitsSigned r.timestamp = true) :
    readRow r.values = .ok r := by
  have value : timestampValue r.timestamp = .int r.timestamp := by rw [timestampValue, if_pos dated]
  rw [VersionRow.values, value]
  rfl

theorem query_byId_oversized {x : String} (long : maxBytes < x.utf8ByteSize) (s : Store) :
    s.query Query.byId [.string x] = (.error .statement, s) := by
  have given : [Json.string x].mapM bound = .ok [.text x] := rfl
  have beyond : ([Query.Value.text x].take 1).any tooLong = true := by
    simpa [tooLong] using long
  rw [query, given]
  dsimp only
  rw [Query.byId_resolved]
  dsimp only
  rw [if_pos beyond]

namespace Logged

variable (logged : Logged log s)
include logged

theorem contents_history : s.contents .history = (log.map Version.row).map VersionRow.values := by
  have ordered := logged.numbered.sort_filter fun _ => true
  rw [List.filter_true] at ordered
  rw [← logged.rows]
  exact congrArg (List.map VersionRow.values) ordered

theorem query_byId {x : String} (short : x.utf8ByteSize ≤ maxBytes) :
    s.query Query.byId [.string x] = (.ok (log.filter (·.id.text = x)), s) := by
  have increasing : (log.map Version.row).Pairwise fun a b => a.sequence < b.sequence := by
    rw [← logged.rows]
    exact List.pairwise_map.mp logged.numbered.increasing
  have found := rows?_byIdPlan logged.contents_history increasing x
  have rows : (log.map Version.row).filter (·.id == x) =
      (log.filter (·.id.text = x)).map Version.row := by
    rw [List.filter_map]
    rfl
  have read := mapM_map_ok (f := readRow) (h := id) ((log.filter (·.id.text = x)).map Version.row)
    fun r member => by
      obtain ⟨v, -, rfl⟩ := List.mem_map.mp member
      exact readRow_values v.timestamp.fits
  have decoded : readVersions ((log.filter (·.id.text = x)).map Version.row) =
      .ok (log.filter (·.id.text = x)) :=
    readVersions_rows fun v member => logged.unsigned (List.mem_of_mem_filter member)
  have within : [Query.Value.text x].any tooLong = false := by
    simpa [tooLong] using short
  rw [List.map_id] at read
  rw [rows] at found
  have given : [Json.string x].mapM bound = .ok [.text x] := rfl
  rw [query_performed given Query.byId_resolved within, perform, found]
  dsimp only
  rw [read]
  exact congrArg (·, s) decoded

end Logged

end Store

namespace Ledger

open Store (Logged)

variable {turns : List Turn} {s : Store}

structure Selected (s : Store) (x : String) (found : List Version) : Prop where
  rows : found.map Version.row = s.versions.filter (·.id == x)
  numbered : found.Pairwise fun u v => u.sequence < v.sequence
  dated : found.Pairwise fun u v => u.timestamp.micros < v.timestamp.micros

theorem selected_logged {log : List Version} (logged : Logged log s) (x : String) :
    Selected s x (log.filter (·.id.text = x)) := by
  refine ⟨?_, ?_, ?_⟩
  · rw [logged.rows, List.filter_map]
    rfl
  · have increasing := logged.numbered.increasing
    rw [logged.rows, List.map_map] at increasing
    refine ((List.pairwise_map.mp increasing).filter _).imp_of_mem fun memberU memberV less => ?_
    rw [Function.comp_apply, Function.comp_apply,
      Store.row_sequence (logged.words _ (List.mem_of_mem_filter memberU)),
      Store.row_sequence (logged.words _ (List.mem_of_mem_filter memberV))] at less
    exact Int.ofNat_lt.mp less
  · refine (logged.later.filter _).imp_of_mem fun {u v} memberU memberV less => less ?_
    have same := (of_decide_eq_true (List.mem_filter.mp memberU).2).trans
      (of_decide_eq_true (List.mem_filter.mp memberV).2).symm
    exact (RecordId.text_inj u.id v.id).mp same

end Ledger
end RecordLedger
