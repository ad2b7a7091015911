import RecordLedger.Proofs.Ledger.Chain

/-! What a clean audit says of pages. An audit compares ids and liveness, a page goes by the tags of
index rows and of versions, and nothing but the ledger's own order of calls keeps the two tags of an
id equal. Calls of several ledgers on one store may interleave, and then they need not be. -/
namespace RecordLedger.Ledger

open Store (Latest Live Sound IndexRow Legible mem_missingRows mem_staleRows)

/-- The pages show each id whose latest version is live and has the tag, once and with that version,
and count them. -/
structure Complete (tag : Tag) (s : Store) (pages : List ResultSet) : Prop where
  ids : ∀ id, id ∈ (shown pages).map (·.id) ↔ LiveUnder tag s id
  distinct : ((shown pages).map (·.id)).Nodup
  latest : ∀ v ∈ shown pages, Latest s v.id.text v.row
  total : ∀ page ∈ pages, page.page.total = (shown pages).length
  ends : ∃ last, pages.getLast? = some last ∧ last.page.hasPrevious = false

def Covers (tag : Tag) (s : Store) : Prop :=
  ∀ now sizes, Ample (s.indexRows tag).length sizes →
    ∃ pages, (walk (Store.answer now) tag sizes none).outcome s = (.ok pages, s) ∧
      Complete tag s pages

/-- An index row has the tag if and only if the latest version of its id has it. -/
def Faithful (tag : Tag) (s : Store) : Prop :=
  ∀ row ∈ s.index, ∀ r, Latest s row.id r → (row.tag = tag.text ↔ r.tag = tag.text)

variable {s t : Store} {tag : Tag} {now : Instant} {report : IndexReport}

/-- A clean audit has compared every id. -/
theorem indexed_of_clean (sound : Sound s)
    (met : (audit (Store.answer now)).outcome s = (.ok report, t))
    (clean : report.isConsistent = true) (id : String) : s.isIndexed id = true ↔ Live s id := by
  obtain ⟨found, answered, missing, stale⟩ := audit_answer sound
  obtain rfl : found = report := by
    have same := (answered now).symm.trans met
    exact Except.ok.inj (congrArg Prod.fst same)
  rw [IndexReport.isConsistent, Bool.and_eq_true, List.isEmpty_iff, List.isEmpty_iff] at clean
  rw [clean.1, List.map_nil, eq_comm, List.map_eq_nil_iff] at missing
  rw [clean.2, List.map_nil, eq_comm, List.map_eq_nil_iff] at stale
  constructor
  · intro present
    obtain ⟨row, stored, rfl⟩ := (Store.isIndexed_iff s id).mp present
    by_contra dead
    have listed := (mem_staleRows sound.keyed).mpr ⟨stored, dead⟩
    rw [stale] at listed
    cases listed
  · rintro ⟨r, latest, live⟩
    by_contra absent
    have names := latest.names
    subst names
    have listed := (mem_missingRows sound.keyed).mpr ⟨latest, live, Bool.eq_false_iff.mpr absent⟩
    rw [missing] at listed
    cases listed

theorem ample_succ (n : Nat) : Ample n (List.replicate (n + 1) 1) := by
  refine ⟨fun k member => ?_, List.cons_ne_nil _ _, by simp⟩
  rw [List.eq_of_mem_replicate member]
  decide

/-- A walk that would start above the greatest number shows one page, and nothing on it. -/
theorem walk_exhausted (now : Instant) (sound : Sound s) (full : Exhausted tag s) {k : Nat}
    (size : 1 ≤ k ∧ k ≤ Store.maxParameters) (sizes : List Nat) :
    ∃ page, (walk (Store.answer now) tag (k :: sizes) none).outcome s = (.ok [page], s) ∧
      page.remaining = [] ∧ page.page.total = (s.indexRows tag).length := by
  obtain ⟨row, stored, tagged, greatest⟩ := full
  have start : Start s tag none Word.minSigned :=
    .wrapped (Store.mem_indexRows.mpr ⟨stored, tagged⟩) greatest
  have nothing : (s.rowsBelow tag Word.minSigned).take k = [] := by
    rw [rowsBelow_none sound.formed, List.take_nil]
  obtain ⟨page, ids, answered, paged⟩ :=
    fetch_answer now sound.formed (by simp [nothing]) start size.1
    (Nat.le_trans size.2 (by decide)) (by simp [nothing])
  have selected := paged.selected
  rw [nothing, List.map_nil, List.map_eq_nil_iff] at selected
  have records := paged.records
  rw [selected, List.filterMap_nil, List.filter_nil, List.map_eq_nil_iff] at records
  have endId : page.page.endId = none := by rw [paged.info, around_eq, selected]; rfl
  refine ⟨page, ?_, records, paged.holds.total⟩
  rw [walk, chained, Action.outcome_bind_ok answered, endId]
  cases page.page.hasPrevious <;> rfl

/-- A tag that has used the greatest number has rows, and there is a walk with places for all of
them that shows none. -/
theorem exhausted_walk (now : Instant) (sound : Sound s) (full : Exhausted tag s) :
    0 < (s.indexRows tag).length ∧ ∃ sizes page, Ample (s.indexRows tag).length sizes ∧
      (walk (Store.answer now) tag sizes none).outcome s = (.ok [page], s) ∧
      page.remaining = [] ∧ page.page.total = (s.indexRows tag).length := by
  have ⟨row, stored, tagged, _⟩ := full
  obtain ⟨page, shows, nothing, total⟩ :=
    walk_exhausted now sound full ⟨Nat.le_refl 1, by decide⟩ (List.replicate _ 1)
  exact ⟨List.length_pos_of_mem (Store.mem_indexRows.mpr ⟨stored, tagged⟩), _, page,
    ample_succ _, shows, nothing, total⟩

theorem Covers.room (covers : Covers tag s) (sound : Sound s) : ¬ Exhausted tag s := by
  intro full
  obtain ⟨positive, sizes, page, ample, shows, nothing, total⟩ := exhausted_walk .epoch sound full
  obtain ⟨pages, met, complete⟩ := covers .epoch sizes ample
  obtain rfl : pages = [page] := Except.ok.inj (congrArg Prod.fst (met.symm.trans shows))
  have counted := complete.total page List.mem_cons_self
  rw [total, shown, List.flatMap_singleton, nothing, List.length_nil] at counted
  omega

/-- A walk with places for all rows of a tag that has not used the greatest number. -/
theorem walk_all (now : Instant) (sound : Sound s) (room : ¬ Exhausted tag s) {sizes : List Nat}
    (ample : Ample (s.indexRows tag).length sizes) :
    ((∃ pages u, (walk (Store.answer now) tag sizes none).outcome s = (.ok pages, u)) →
      ∀ row ∈ s.indexRows tag, Legible s row.id) ∧
    ((∀ row ∈ s.indexRows tag, Legible s row.id) →
      ∃ pages blocks, (walk (Store.answer now) tag sizes none).outcome s = (.ok pages, s) ∧
        blocks.flatten.map (·.text) = (s.indexRows tag).map (·.id) ∧
        List.Forall₂ (Holds s tag) blocks pages ∧
        ∃ last, pages.getLast? = some last ∧ last.page.hasPrevious = false) := by
  have room := room_of_not_exhausted sound room
  have opened := Open.of_room room
  have all : (s.rowsBelow tag Word.maxSigned).take sizes.sum = s.indexRows tag := by
    rw [rowsBelow_all room, List.take_of_length_le ample.enough]
  constructor
  · rintro ⟨pages, u, met⟩
    have legible := walk_legible now sound opened ample.sized met
    rwa [all] at legible
  · intro legible
    obtain ⟨pages, blocks, met, texts, held, last⟩ :=
      walk_shows now sound opened ample.sized (by rwa [all])
    rw [all] at texts
    obtain ⟨last, ends, said⟩ := last ample.nonempty
    rw [rowsBelow_all room, decide_eq_false (Nat.not_lt.mpr ample.enough)] at said
    exact ⟨pages, blocks, met, texts, held, last, ends, said⟩

theorem Covers.legible (covers : Covers tag s) (sound : Sound s) :
    ∀ row ∈ s.indexRows tag, Legible s row.id := by
  have ample := ample_succ (s.indexRows tag).length
  obtain ⟨pages, met, _⟩ := covers .epoch _ ample
  exact (walk_all .epoch sound (covers.room sound) ample).1 ⟨pages, s, met⟩

theorem Covers.faithful (covers : Covers tag s) (sound : Sound s)
    (indexed : ∀ id, s.isIndexed id = true ↔ Live s id) : Faithful tag s := by
  have ample := ample_succ (s.indexRows tag).length
  obtain ⟨pages, met, complete⟩ := covers .epoch _ ample
  obtain ⟨others, blocks, shows, texts, held, last, ends, _⟩ :=
    (walk_all .epoch sound (covers.room sound) ample).2 (covers.legible sound)
  obtain rfl : pages = others := Except.ok.inj (congrArg Prod.fst (met.symm.trans shows))
  intro row stored r latest
  obtain ⟨id, _, names, _⟩ := sound.indexTexts row stored
  constructor
  · intro tagged
    have counted := complete.total last (List.mem_of_getLast? ends)
    obtain ⟨ids, _, holds⟩ := holds_of_mem held (List.mem_of_getLast? ends)
    have lengths := congrArg List.length texts
    rw [List.length_map, List.length_map, ← holds.total, counted] at lengths
    have listed := (mem_ids_iff texts).mpr ⟨row, stored, names.symm, tagged⟩
    obtain ⟨other, found, under⟩ := under_of_length held sound lengths.symm id listed
    rwa [Latest.unique sound.keyed latest (names ▸ found)]
  · intro tagged
    obtain ⟨u, live⟩ := (indexed row.id).mp ((Store.isIndexed_iff s row.id).mpr ⟨row, stored, rfl⟩)
    rw [← Latest.unique sound.keyed latest live.1] at live
    have among := (complete.ids id).mpr ⟨r, names.symm ▸ latest, live.2, tagged⟩
    obtain ⟨v, member, rfl⟩ := List.mem_map.mp among
    have asked := (shown_latest held sound member).1
    obtain ⟨other, listed, same, under⟩ := (mem_ids_iff texts).mp asked
    rwa [sound.keyed.row_unique stored listed (names.symm.trans same.symm)]

/-- The ids that the rows of a tag name are those that are live under it. -/
theorem mem_ids_live_iff {ids : List RecordId} {id : RecordId}
    (indexed : ∀ id, s.isIndexed id = true ↔ Live s id) (faithful : Faithful tag s)
    (texts : ids.map (·.text) = (s.indexRows tag).map (·.id)) : id ∈ ids ↔ LiveUnder tag s id := by
  rw [mem_ids_iff texts]
  constructor
  · rintro ⟨row, stored, names, tagged⟩
    obtain ⟨r, latest, live⟩ :=
      (indexed row.id).mp ((Store.isIndexed_iff s row.id).mpr ⟨row, stored, rfl⟩)
    exact ⟨r, names ▸ latest, live, (faithful row stored r latest).mp tagged⟩
  · rintro ⟨r, latest, live, tagged⟩
    obtain ⟨row, stored, names⟩ :=
      (Store.isIndexed_iff s id.text).mp ((indexed id.text).mpr ⟨r, latest, live⟩)
    exact ⟨row, stored, names, (faithful row stored r (names ▸ latest)).mpr tagged⟩

theorem covers_of_faithful (sound : Sound s) (indexed : ∀ id, s.isIndexed id = true ↔ Live s id)
    (faithful : Faithful tag s) (legible : ∀ row ∈ s.indexRows tag, Legible s row.id)
    (room : ¬ Exhausted tag s) : Covers tag s := by
  intro now sizes ample
  obtain ⟨pages, blocks, met, texts, held, ends⟩ := (walk_all now sound room ample).2 legible
  have listed : ∀ id, id ∈ blocks.flatten ↔ LiveUnder tag s id := fun _ =>
    mem_ids_live_iff indexed faithful texts
  have ids : (shown pages).map (·.id) = blocks.flatten :=
    shown_ids_live held sound fun id => (listed id).mp
  refine ⟨pages, met, fun id => by rw [ids, listed], ?_, ?_, ?_, ends⟩
  · rw [ids]
    exact nodup_of_rows sound.formed (sound.formed.indexRows_decreasing tag)
      (fun row member => (Store.mem_indexRows.mp member).1) texts
  · exact fun v member => (shown_latest held sound member).2.2
  · intro page member
    obtain ⟨_, _, holds⟩ := holds_of_mem held member
    have lengths := congrArg List.length texts
    rw [← ids, List.length_map, List.length_map, List.length_map] at lengths
    rw [holds.total, lengths]

/-- In a store that calls of any callers lead to, a clean audit means that the pages of a tag show
all that is live under it, exactly as long as index rows and latest versions agree on the tag, the
timestamps of the versions can be read and the tag has not used the greatest number. -/
theorem clean_audit_covers (reached : Store.Reached s)
    (met : (audit (Store.answer now)).outcome s = (.ok report, t))
    (clean : report.isConsistent = true) (tag : Tag) :
    Covers tag s ↔
      Faithful tag s ∧ (∀ row ∈ s.indexRows tag, Legible s row.id) ∧ ¬ Exhausted tag s := by
  have sound := reached.sound
  have indexed := indexed_of_clean sound met clean
  constructor
  · intro covers
    exact ⟨covers.faithful sound indexed, covers.legible sound, covers.room sound⟩
  · rintro ⟨faithful, legible, room⟩
    exact covers_of_faithful sound indexed faithful legible room

/-- Two ledgers write the same new record. Both have found it without a tag, and the calls of the
second one fall between the lookup and the insertion of the first. -/
def raced (within around : Tag) : Store :=
  (Store.answer .epoch).runAll
    [.insertVersion default within "[1]", .upsertIndex default within,
      .insertVersion default around "[1]", .upsertIndex default around] .empty

theorem raced_reached (within around : Tag) : Store.Reached (raced within around) :=
  Store.Reached.empty.runAll _ _ (by simp [Store.Call.method])

def memoTag : Tag := ⟨"app.memo", by decide⟩

def taskTag : Tag := ⟨"app.task", by decide⟩

theorem raced_audit_covers :
    Store.Reached (raced memoTag memoTag) ∧
      (audit (Store.answer .epoch)).outcome (raced memoTag memoTag) =
        (.ok ⟨[], []⟩, raced memoTag memoTag) ∧
      Covers memoTag (raced memoTag memoTag) := by
  have reached := raced_reached memoTag memoTag
  have met : (audit (Store.answer .epoch)).outcome (raced memoTag memoTag) = (.ok ⟨[], []⟩, _) :=
    rfl
  have rows : ∀ row ∈ (raced memoTag memoTag).index,
      row.tag = memoTag.text ∧ row.sequence ≠ Word.maxSigned := by decide
  have versions : ∀ r ∈ (raced memoTag memoTag).versions,
      r.tag = memoTag.text ∧ Word.fitsSigned r.timestamp = true := by decide +kernel
  refine ⟨reached, met, (clean_audit_covers reached met rfl memoTag).mpr ⟨?_, ?_, ?_⟩⟩
  · intro row stored r latest
    exact iff_of_true (rows row stored).1 (versions r latest.stored).1
  · exact fun row _ r latest => (versions r latest.stored).2
  · rintro ⟨row, stored, _, greatest⟩
    exact (rows row stored).2 greatest

/-- Of two tags the first one keeps the index row, and the second one has the latest version. The
audit is clean, but no page shows the record. -/
theorem raced_audit_misses :
    Store.Reached (raced memoTag taskTag) ∧
      (audit (Store.answer .epoch)).outcome (raced memoTag taskTag) =
        (.ok ⟨[], []⟩, raced memoTag taskTag) ∧
      LiveUnder taskTag (raced memoTag taskTag) default ∧ ¬ Covers taskTag (raced memoTag taskTag) ∧
      (fetch (Store.answer .epoch) taskTag 5 none).outcome (raced memoTag taskTag) =
        (.ok ⟨[], .empty, none⟩, raced memoTag taskTag) ∧
      (fetch (Store.answer .epoch) memoTag 5 none).outcome (raced memoTag taskTag) =
        (.ok ⟨[], ⟨1, false, false, some default, some default⟩, none⟩, raced memoTag taskTag) := by
  have reached := raced_reached memoTag taskTag
  have met : (audit (Store.answer .epoch)).outcome (raced memoTag taskTag) = (.ok ⟨[], []⟩, _) :=
    rfl
  have latest : Latest (raced memoTag taskTag) (default : RecordId).text
      ⟨2, (default : RecordId).text, taskTag.text, "[1]", 1⟩ :=
    Store.latest?_latest (by decide +kernel)
  have written : "[1]" ≠ tombstone := by decide
  refine ⟨reached, met, ⟨_, latest, written, rfl⟩, fun covers => ?_, by rfl, by rfl⟩
  have faithful := covers.faithful reached.sound (indexed_of_clean reached.sound met rfl)
  have stored : (⟨1, (default : RecordId).text, memoTag.text⟩ : IndexRow) ∈
      (raced memoTag taskTag).index := by decide +kernel
  have same : memoTag.text = taskTag.text := (faithful _ stored _ latest).mpr rfl
  exact absurd same (by decide)

end RecordLedger.Ledger
