import RecordLedger.Proofs.Ledger.Audit
import RecordLedger.Proofs.Ledger.Frame

/-! The index of a ledger over whole runs: it lists an id exactly while the latest version of that
id is live, under the tag of all its versions. -/
namespace RecordLedger.Ledger

open Store (Live Latest Sound)

variable {s t : Store}

/-- The index says of every id what the history says. -/
structure Consistent (s : Store) : Prop where
  dated : ∀ r ∈ s.versions, Word.fitsSigned r.timestamp = true
  indexed : ∀ id, s.isIndexed id = true ↔ Live s id
  oneTag : ∀ a ∈ s.versions, ∀ b ∈ s.versions, a.id = b.id → a.tag = b.tag
  rowTag : ∀ r ∈ s.index, ∀ v ∈ s.versions, v.id = r.id → r.tag = v.tag

theorem empty_consistent : Consistent .empty := by
  refine ⟨by simp [Store.empty], ?_, by simp [Store.empty], by simp [Store.empty]⟩
  intro id
  simp only [Store.isIndexed_iff, Live]
  constructor
  · rintro ⟨r, stored, _⟩; cases stored
  · rintro ⟨r, latest, _⟩; cases latest.stored

/-- An index row is backed by a live version under its tag. -/
theorem Consistent.row_latest {row : Store.IndexRow} (valid : Consistent s)
    (stored : row ∈ s.index) :
    ∃ r, Latest s row.id r ∧ r.payload ≠ tombstone ∧ row.tag = r.tag := by
  have indexed := (Store.isIndexed_iff s row.id).mpr ⟨row, stored, rfl⟩
  obtain ⟨r, latest, live⟩ := (valid.indexed row.id).mp indexed
  exact ⟨r, latest, live, valid.rowTag row stored r latest.stored latest.names⟩

/-- The version just appended is the latest of its id and decides the id's index row; rows and
versions of other ids stay as they were. -/
theorem Appended.consistent {now : Instant} {id : RecordId} {tag : Tag} {payload : String}
    {v : Version} (appended : Appended now id tag payload s v t) (valid : Consistent s)
    (tagged : ∀ r ∈ s.versions, r.id = id.text → r.tag = tag.text) : Consistent t := by
  have grown := appended.versions
  refine ⟨?_, ?_, ?_, ?_⟩
  · intro r stored
    rcases (Store.mem_push grown).mp stored with old | rfl
    · exact valid.dated r old
    · simpa [Store.newRow, appended.stamp] using v.timestamp.fits
  · intro other
    by_cases same : id.text = other
    · subst same
      rw [appended.synced.isIndexed_same]
      exact (Store.live_push_same grown appended.later).symm
    · rw [appended.synced.isIndexed_other same, valid.indexed other]
      exact (Store.live_push_other grown same).symm
  · intro a storedA b storedB same
    rcases (Store.mem_push grown).mp storedA with oldA | rfl <;>
      rcases (Store.mem_push grown).mp storedB with oldB | rfl
    · exact valid.oneTag a oldA b oldB same
    · exact tagged a oldA same
    · exact (tagged b oldB same.symm).symm
    · rfl
  · intro r listed u storedU names
    rcases appended.synced.mem_cases listed with old | ⟨n, rfl⟩
    · rcases (Store.mem_push grown).mp storedU with oldU | rfl
      · exact valid.rowTag r old u oldU names
      · have indexed := (Store.isIndexed_iff s r.id).mpr ⟨r, old, rfl⟩
        obtain ⟨w, latest, _⟩ := (valid.indexed r.id).mp indexed
        rw [valid.rowTag r old w latest.stored latest.names]
        exact tagged w latest.stored (latest.names.trans names.symm)
    · rcases (Store.mem_push grown).mp storedU with oldU | rfl
      · exact (tagged u oldU names).symm
      · rfl

/-- Where the index is in line with the history, an event that fails no call leaves the store as it
was or appends a version under the tag that its id has. -/
theorem Advance.cases {e : Event} (step : Advance s e) (sound : Sound s) (valid : Consistent s) :
    e.after = s ∨ ∃ now id tag payload v, Appended now id tag payload s v e.after ∧
      ∀ r ∈ s.versions, r.id = id.text → r.tag = tag.text := by
  obtain ⟨now, operation, outcome, after⟩ := e
  have met := step.met
  have frame : operation.Reads → after = s := by
    intro reading
    have same := keeps_reading now operation reading s
    rw [met] at same
    exact same
  cases operation with
  | change c =>
    rcases c.answer_cases met step.undisturbed with ⟨_, same⟩ |
      ⟨found, payload, v, looked, settled, _, appended⟩
    · exact .inl same
    · refine .inr ⟨now, c.id, c.tag, payload, v, appended, ?_⟩
      rcases c.tag_met looked settled with none_stored | ⟨w, storedW, namesW, tagW⟩
      · exact fun r stored names => absurd names (none_stored r stored)
      · exact fun r stored names =>
          (valid.oneTag r stored w storedW (names.trans namesW.symm)).trans tagW
  | reconcile =>
    simp only [Operation.perform, reconcile_indexed now sound valid.indexed, Prod.mk.injEq] at met
    exact .inl met.2.symm
  | _ => exact .inl (frame trivial)

theorem Advance.consistent {e : Event} (step : Advance s e) (sound : Sound s)
    (valid : Consistent s) : Consistent e.after := by
  rcases step.cases sound valid with same | ⟨now, id, tag, payload, v, appended, tagged⟩
  · exact same ▸ valid
  · exact appended.consistent valid tagged

structure Steady (s : Store) : Prop where
  reached : Store.Reached s
  consistent : Consistent s

theorem Steady.sound (steady : Steady s) : Sound s := steady.reached.sound

theorem Steady.legible (steady : Steady s) {id : String} : Store.Legible s id :=
  fun r latest => steady.consistent.dated r latest.stored

theorem Steady.readable (steady : Steady s) {id : String} : Store.Readable s id :=
  steady.legible.readable steady.sound

theorem Advance.steady {e : Event} (step : Advance s e) (steady : Steady s) : Steady e.after :=
  ⟨step.reached steady.reached, step.consistent steady.sound steady.consistent⟩

theorem Run.steady (run : Run .empty events s) : Steady s :=
  run.invariant Steady (fun _ _ steady step => step.steady steady) ⟨.empty, empty_consistent⟩

/-- What the index promises its readers, said of the rows of both relations. -/
structure IndexMirrorsHistory (s : Store) : Prop where
  single : ∀ id : RecordId, (s.index.filter (·.id = id.text)).length ≤ 1
  indexed : ∀ id : RecordId, (∃ row ∈ s.index, row.id = id.text) ↔
    ∃ v, Latest s id.text v ∧ v.payload ≠ tombstone
  tagged : ∀ row ∈ s.index, ∀ v ∈ s.versions, v.id = row.id → row.tag = v.tag
  audited : ∀ now, (audit (Store.answer now)).outcome s = (.ok ⟨[], []⟩, s)

/-- After every operation of a run, whatever its values and clock readings: each id has at most one
index row, it has one exactly while its latest version is no deletion, the row's tag is that of all
versions of the id, and an audit finds nothing to repair. -/
theorem run_index_mirrors_history (run : Run .empty events s) : IndexMirrorsHistory s := by
  have sound := run.steady.sound
  have valid := run.steady.consistent
  refine ⟨fun id => sound.rows_le_one id.text, fun id => ?_, valid.rowTag,
    fun now => audit_indexed now sound valid.indexed⟩
  rw [← Store.isIndexed_iff]
  exact valid.indexed id.text

def restoring : List (Instant × Operation) :=
  let tag : Tag := ⟨"app.note", by decide⟩
  [(⟨5, rfl⟩, .change (.write default ⟨none, tag, .ok "[1]"⟩)),
    (⟨3, rfl⟩, .change (.delete default tag)),
    (⟨1, rfl⟩, .change (.restore default tag ⟨5, rfl⟩))]

theorem restored_index_mirrors_history :
    let s := left .empty (play restoring .empty)
    s.index = [⟨2, (default : RecordId).text, "app.note"⟩] ∧
    Run .empty (play restoring .empty) s ∧ IndexMirrorsHistory s := by
  have run := play_run restoring .empty (by decide)
  exact ⟨by decide, run, run_index_mirrors_history run⟩

end RecordLedger.Ledger
