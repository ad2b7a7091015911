import RecordLedger.Proofs.Ledger.Consistency
import RecordLedger.Proofs.Ledger.History
import RecordLedger.Proofs.Ledger.Page

/-! What does not depend on numbers. Both relations number their rows over all records, so two
stores with the same entries of a record may number them differently. What a change does with the
record, and what readers show of it, is the same in both up to those numbers. -/
namespace RecordLedger

def Version.unnumbered (v : Version) : Version := { v with sequence := 0 }

theorem Version.unnumbered_of_row {u v : Version} (same : u.row = v.row) :
    u.unnumbered = v.unnumbered := by
  have ids := RecordId.text_injective _ _ (congrArg Store.VersionRow.id same)
  have tags := Tag.text_injective _ _ (congrArg Store.VersionRow.tag same)
  have payloads : u.payload = v.payload := congrArg Store.VersionRow.payload same
  have times := Instant.micros_injective _ _ (congrArg Store.VersionRow.timestamp same)
  simp only [unnumbered, ids, tags, payloads, times]

theorem entries_unnumbered (log : List Version) (id : RecordId) :
    entries (log.map Version.unnumbered) id = (entries log id).map Version.unnumbered :=
  List.filter_map

namespace Ledger

open Store (Logged Sound)

def ResultSet.unnumbered (found : ResultSet) : ResultSet :=
  { found with remaining := found.remaining.map Version.unnumbered }

theorem ResultSet.unpaginated_unnumbered (vs : List Version) :
    (unpaginated vs).unnumbered = unpaginated (vs.map Version.unnumbered) := by
  simp [unpaginated, unnumbered, PageInfo.unpaginated, Option.map_map, Function.comp_def,
    Version.unnumbered]

def Agree (id : RecordId) (log log' : List Version) : Prop :=
  (entries log id).map Version.unnumbered = (entries log' id).map Version.unnumbered

variable {s s' : Store} {log log' : List Version} {id : RecordId} {tag : Tag}

/-- A change looks at the entries of its own record and at none of their numbers. -/
theorem Change.due_entries (log : List Version) (c : Change) :
    c.due ((entries log c.id).map Version.unnumbered) = c.due log := by
  have own : ∀ id, entries ((entries log id).map Version.unnumbered) id =
      (entries log id).map Version.unnumbered := by
    intro id
    rw [entries_unnumbered, entries, entries, List.filter_filter]
    simp only [Bool.and_self]
  cases c with
  | write fresh draft =>
    simp only [due, Change.id, own, List.head?_map]
    cases (entries log (draft.id.getD fresh)).head? <;> rfl
  | delete id tag =>
    simp only [due, Change.id, own, List.any_map]
    rfl
  | restore id tag at_ =>
    have blind : (fun v : Version => decide (v.tag = tag ∧ v.timestamp = at_)) ∘
        Version.unnumbered = fun v => decide (v.tag = tag ∧ v.timestamp = at_) := rfl
    simp only [due, Change.id, own, List.find?_map, blind]
    cases (entries log id).find? fun v => v.tag = tag ∧ v.timestamp = at_ <;> rfl

theorem Agree.due {c : Change} (agree : Agree c.id log log') : c.due log = c.due log' := by
  rw [← c.due_entries log, ← c.due_entries log', agree]

theorem option_map_cases {f : α → β} {x y : Option α} (same : x.map f = y.map f) :
    (x = none ∧ y = none) ∨ ∃ a b, x = some a ∧ y = some b ∧ f a = f b := by
  cases x <;> cases y
  · exact .inl ⟨rfl, rfl⟩
  · cases same
  · cases same
  · exact .inr ⟨_, _, rfl, rfl, Option.some.inj same⟩

theorem Agree.getLast? (agree : Agree id log log') :
    (entries log id).getLast?.map Version.unnumbered =
      (entries log' id).getLast?.map Version.unnumbered := by
  rw [← List.getLast?_map, agree, List.getLast?_map]

theorem Agree.stamp (agree : Agree id log log') (logged : Logged log s) (logged' : Logged log' s')
    (now : Instant) : s.stamp id.text now = s'.stamp id.text now := by
  rw [logged.stamp_eq_entries, logged'.stamp_eq_entries]
  rcases option_map_cases agree.getLast? with ⟨first, second⟩ | ⟨u, v, first, second, same⟩
  · rw [first, second]
  · have times : u.unnumbered.timestamp = v.unnumbered.timestamp := congrArg _ same
    simp only [Version.unnumbered] at times
    simp only [first, second, times]

theorem Agree.read (agree : Agree id log log') (logged : Logged log s) (logged' : Logged log' s')
    (now : Instant) (tag : Tag) :
    ((read (Store.answer now) id tag).outcome s).1.map Version.unnumbered =
      ((read (Store.answer now) id tag).outcome s').1.map Version.unnumbered := by
  have found : ((entries log id).reverse.find? (·.tag = tag)).map Version.unnumbered =
      ((entries log' id).reverse.find? (·.tag = tag)).map Version.unnumbered := by
    have newest := congrArg (fun vs => vs.reverse.find? (·.tag = tag)) agree
    simp only [← List.map_reverse, List.find?_map] at newest
    exact newest
  rw [read_found logged, read_found logged']
  rcases option_map_cases found with ⟨first, second⟩ | ⟨u, v, first, second, same⟩
  · rw [first, second]
  · rw [first, second]
    exact congrArg Except.ok same

theorem Agree.history (agree : Agree id log log') (logged : Logged log s)
    (logged' : Logged log' s') (now : Instant) :
    ((history (Store.answer now) id).outcome s).1.map ResultSet.unnumbered =
      ((history (Store.answer now) id).outcome s').1.map ResultSet.unnumbered := by
  rw [history_logged logged, history_logged logged']
  refine congrArg Except.ok ?_
  rw [ResultSet.unpaginated_unnumbered, ResultSet.unpaginated_unnumbered, List.map_reverse,
    List.map_reverse, agree]

/-- In both stores the rows of a tag name the same records in the same order, below the greatest
number, and both logs hold the same entries of those records. -/
structure Alike (tag : Tag) (log log' : List Version) (s s' : Store) : Prop where
  steady : Steady s
  steady' : Steady s'
  logged : Logged log s
  logged' : Logged log' s'
  room : ∀ row ∈ s.indexRows tag, row.sequence < Word.maxSigned
  room' : ∀ row ∈ s'.indexRows tag, row.sequence < Word.maxSigned
  rows : (s.indexRows tag).map (·.id) = (s'.indexRows tag).map (·.id)
  agree : ∀ row ∈ s.indexRows tag, ∀ id : RecordId, row.id = id.text → Agree id log log'

theorem map_eq_of_map_eq {f : α → β} {g : α → γ} (finer : ∀ a b, f a = f b → g a = g b)
    {xs ys : List α} (same : xs.map f = ys.map f) : xs.map g = ys.map g := by
  induction xs generalizing ys with
  | nil =>
    rw [List.map_eq_nil_iff.mp same.symm]
  | cons x xs ih =>
    cases ys with
    | nil => cases same
    | cons y ys =>
      obtain ⟨first, rest⟩ := List.cons.inj same
      rw [List.map_cons, List.map_cons, finer x y first, ih rest]

namespace Alike

variable (alike : Alike tag log log' s s') {before : Option RecordId} {first : Nat}
include alike

theorem latestInOrder (now : Instant) {ids : List RecordId}
    (listed : ∀ id ∈ ids, ∃ row ∈ s.indexRows tag, row.id = id.text) :
    ((latestInOrder (Store.answer now) ids).outcome s).1.map (List.map Version.unnumbered) =
      ((latestInOrder (Store.answer now) ids).outcome s').1.map
        (List.map Version.unnumbered) := by
  by_cases few : ids.length ≤ Store.maxParameters
  · have formed := alike.steady.sound.formed
    have formed' := alike.steady'.sound.formed
    obtain ⟨vs, answered, rows⟩ := latestInOrder_ok now formed.keyed formed.words ids
      (fun _ _ => alike.steady.readable) few
    obtain ⟨vs', answered', rows'⟩ := latestInOrder_ok now formed'.keyed formed'.words ids
      (fun _ _ => alike.steady'.readable) few
    simp only [alike.logged.latest?_eq, ← List.map_filterMap] at rows
    simp only [alike.logged'.latest?_eq, ← List.map_filterMap] at rows'
    have read := map_eq_of_map_eq (fun _ _ => Version.unnumbered_of_row) rows
    have read' := map_eq_of_map_eq (fun _ _ => Version.unnumbered_of_row) rows'
    rw [answered, answered']
    refine congrArg Except.ok ?_
    rw [read, read', List.map_filterMap, List.map_filterMap]
    refine List.filterMap_congr fun id member => ?_
    obtain ⟨row, stored, names⟩ := listed id (List.mem_eraseDups.mp member)
    exact (alike.agree row stored id names).getLast?
  · rw [latestInOrder_many now s (by omega), latestInOrder_many now s' (by omega)]

theorem fetch_started {bound bound' : Int} (now : Instant) (start : Start s tag before bound)
    (start' : Start s' tag before bound')
    (below : (s.rowsBelow tag bound).map (·.id) = (s'.rowsBelow tag bound').map (·.id))
    (info : ∀ ids, around s tag before bound ids = around s' tag before bound' ids)
    (positive : 0 < first) (fits : first ≤ Word.maxUnsigned) :
    ((fetch (Store.answer now) tag first before).outcome s).1.map ResultSet.unnumbered =
      ((fetch (Store.answer now) tag first before).outcome s').1.map ResultSet.unnumbered := by
  obtain ⟨ids, selected, fetched⟩ :=
    fetch_selected now alike.steady.sound.formed start positive fits
  obtain ⟨ids', selected', fetched'⟩ :=
    fetch_selected now alike.steady'.sound.formed start' positive fits
  obtain rfl : ids = ids' := by
    apply texts_inj
    rw [selected, selected', List.map_take, List.map_take, below]
  have records := alike.latestInOrder now fun id member => by
    have named : id.text ∈ ids.map (·.text) := List.mem_map_of_mem member
    rw [selected] at named
    obtain ⟨row, listed, names⟩ := List.mem_map.mp named
    exact ⟨row, (List.mem_filter.mp (List.mem_of_mem_take listed)).1, names⟩
  rw [fetched, fetched', Action.outcome_bind, Action.outcome_bind, info]
  generalize (Ledger.latestInOrder (Store.answer now) ids).outcome s = met at records
  generalize (Ledger.latestInOrder (Store.answer now) ids).outcome s' = met' at records
  obtain ⟨found, t⟩ := met
  obtain ⟨found', t'⟩ := met'
  cases found with
  | error e =>
    cases found' with
    | error f =>
      cases records
      rfl
    | ok vs => cases records
  | ok vs =>
    cases found' with
    | error f => cases records
    | ok vs' =>
      have same := congrArg (List.filter (·.tag = tag)) (Except.ok.inj records)
      rw [List.filter_map, List.filter_map] at same
      exact congrArg (fun vs => Except.ok (⟨vs, around s' tag before bound' ids, none⟩ : ResultSet))
        same

theorem fetch_top (now : Instant) (positive : 0 < first) (fits : first ≤ Word.maxUnsigned) :
    ((fetch (Store.answer now) tag first none).outcome s).1.map ResultSet.unnumbered =
      ((fetch (Store.answer now) tag first none).outcome s').1.map ResultSet.unnumbered := by
  have total : (s.indexRows tag).length = (s'.indexRows tag).length := by
    simpa using congrArg List.length alike.rows
  have below : (s.rowsBelow tag Word.maxSigned).map (·.id) =
      (s'.rowsBelow tag Word.maxSigned).map (·.id) := by
    rw [rowsBelow_all alike.room, rowsBelow_all alike.room', alike.rows]
  refine alike.fetch_started now (.newest alike.room) (.newest alike.room') below (fun ids => ?_)
    positive fits
  rw [around_eq, around_eq, rowsBehind, rowsBehind, total]
  rfl

theorem fetch_behind (now : Instant) (id : RecordId) (positive : 0 < first)
    (fits : first ≤ Word.maxUnsigned) :
    ((fetch (Store.answer now) tag first (some id)).outcome s).1.map ResultSet.unnumbered =
      ((fetch (Store.answer now) tag first (some id)).outcome s').1.map ResultSet.unnumbered := by
  by_cases listed : id.text ∈ (s.indexRows tag).map (·.id)
  · obtain ⟨row, listed, names⟩ := List.mem_map.mp listed
    obtain ⟨front, back, shape⟩ := List.append_of_mem listed
    have named := alike.rows
    rw [shape, List.map_append, List.map_cons] at named
    obtain ⟨front', rest, shape', fronts, rests⟩ := List.map_eq_append_iff.mp named.symm
    obtain ⟨row', back', rfl, same, backs⟩ := List.map_eq_cons_iff.mp rests
    have listed' : row' ∈ s'.indexRows tag := by simp [shape']
    obtain ⟨stored, tagged⟩ := Store.mem_indexRows.mp listed
    obtain ⟨stored', tagged'⟩ := Store.mem_indexRows.mp listed'
    have names' : row'.id = id.text := same.trans names
    obtain ⟨below, above⟩ := alike.steady.sound.formed.around_row shape
    obtain ⟨below', above'⟩ := alike.steady'.sound.formed.around_row shape'
    have total := congrArg List.length alike.rows
    have newer := congrArg List.length fronts
    have older := congrArg List.length backs
    simp only [List.length_map] at total newer older
    refine alike.fetch_started now (.behind stored names tagged) (.behind stored' names' tagged')
      (by rw [below, below', backs]) (fun ids => ?_) positive fits
    simp only [around_eq, rowsBehind_eq alike.steady.sound.formed stored names,
      rowsBehind_eq alike.steady'.sound.formed stored' names', below, below', above, above', total,
      newer, older]
  · have absent : ∀ row ∈ s.indexRows tag, row.id ≠ id.text := fun row stored names =>
      listed (List.mem_map.mpr ⟨row, stored, names⟩)
    rw [alike.rows] at listed
    have absent' : ∀ row ∈ s'.indexRows tag, row.id ≠ id.text := fun row stored names =>
      listed (List.mem_map.mpr ⟨row, stored, names⟩)
    have empty : (s.indexRows tag).isEmpty = (s'.indexRows tag).isEmpty := by
      simpa using congrArg List.isEmpty alike.rows
    rw [fetch_unanchored now positive absent, fetch_unanchored now positive absent', empty]

theorem fetch_eq (now : Instant) (fits : first ≤ Word.maxUnsigned) :
    ((fetch (Store.answer now) tag first before).outcome s).1.map ResultSet.unnumbered =
      ((fetch (Store.answer now) tag first before).outcome s').1.map ResultSet.unnumbered := by
  rcases Nat.eq_zero_or_pos first with rfl | positive
  · rfl
  · cases before with
    | some id => exact alike.fetch_behind now id positive fits
    | none => exact alike.fetch_top now positive fits

end Alike

end Ledger
end RecordLedger
