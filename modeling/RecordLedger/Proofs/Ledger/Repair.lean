import RecordLedger.Proofs.Ledger.Audit
import RecordLedger.Proofs.Ledger.Frame

/-! Reconciliation of any store that calls lead to. The repairs look at the latest versions again,
and since they leave the history alone they confirm every entry of the audit: the rows of dead ids
go, and the missing rows are added behind all others in the order of the latest versions. -/
namespace RecordLedger.Ledger

open Store (Latest Live Sound VersionRow IndexRow mem_missingRows mem_staleRows missingRows
  staleRows)

variable {s t : Store} {now : Instant}

def numberedRows : Int → List VersionRow → List IndexRow
  | _, [] => []
  | last, r :: rest => ⟨last + 1, r.id, r.tag⟩ :: numberedRows (last + 1) rest

def listed (s : Store) (id tag : String) : Store :=
  { s with index := s.index ++ [⟨s.lastIndex + 1, id, tag⟩], lastIndex := s.lastIndex + 1 }

def repaired (s : Store) : Store :=
  { s with
    index := s.index.filter (fun row => !s.isDead row.id) ++
      numberedRows s.lastIndex (missingRows s)
    lastIndex := s.lastIndex + (missingRows s).length }

theorem indexIfLive_latest {id : RecordId} {tag : Tag} {row : VersionRow}
    (stored : row ∈ s.versions) (latest : s.isLatest row = true)
    (live : isTombstone row.payload = false)
    (idText : id.text = row.id) (tagText : tag.text = row.tag) :
    s.indexIfLive id tag = s.upsertIndex id tag := by
  have found : (s.versions.any fun r =>
      r.id == id.text && r.tag == tag.text && s.isLatest r && !isTombstone r.payload) = true := by
    refine List.any_eq_true.mpr ⟨row, stored, ?_⟩
    simp [idText, tagText, latest, live]
  rw [Store.indexIfLive, if_pos found]

theorem upsertIndex_absent {id : RecordId} {tag : Tag} {x : Bool}
    (absent : s.isIndexed id.text = false) (met : s.upsertIndex id tag = (.ok x, t)) :
    x = true ∧ t = listed s id.text tag.text := by
  unfold Store.upsertIndex at met
  split at met
  · cases met
  · next n free =>
    obtain ⟨_, rfl⟩ := Store.next?_eq_some_iff.mp free
    rw [absent] at met
    cases met
    exact ⟨rfl, rfl⟩

/-- Each repair finds its entry still missing, since those before it index other ids. -/
theorem repairEach_missing {entries : List Drift} {rows : List VersionRow}
    {r : Except Error (List Drift)}
    (met : (repairEach (fun d => call (Store.answer now) (.indexIfLive d.id d.tag))
      entries).outcome s = (r, t))
    (undisturbed : ∀ f, r ≠ .error (.store f))
    (texts : entries.map Drift.texts = rows.map fun r => (r.id, r.tag))
    (current : ∀ r ∈ rows, r ∈ s.versions ∧ s.isLatest r = true ∧ isTombstone r.payload = false)
    (absent : ∀ r ∈ rows, s.isIndexed r.id = false)
    (distinct : rows.Pairwise fun a b => a.id ≠ b.id) :
    r = .ok entries ∧ t = { s with
      index := s.index ++ numberedRows s.lastIndex rows
      lastIndex := s.lastIndex + rows.length } := by
  induction entries generalizing s t rows r with
  | nil =>
    obtain rfl : rows = [] := by simpa using texts.symm
    cases met
    simp [numberedRows]
  | cons d rest ih =>
    cases rows with
    | nil => cases texts
    | cons row rows =>
      simp only [List.map_cons, List.cons.injEq, Drift.texts, Prod.mk.injEq] at texts
      obtain ⟨⟨idText, tagText⟩, texts⟩ := texts
      obtain ⟨⟨stored, latest, live⟩, others⟩ := List.forall_mem_cons.mp current
      obtain ⟨unindexed, absent⟩ := List.forall_mem_cons.mp absent
      obtain ⟨apart, distinct⟩ := List.pairwise_cons.mp distinct
      rcases Action.call_bind_cases met with ⟨e, _, failed⟩ | ⟨x, u, answered, later⟩
      · exact absurd failed (undisturbed e)
      · simp only [Store.answer, indexIfLive_latest stored latest live idText tagText] at answered
        obtain ⟨rfl, rfl⟩ := upsertIndex_absent (idText ▸ unindexed) answered
        have absent : ∀ r ∈ rows, (listed s d.id.text d.tag.text).isIndexed r.id = false := by
          intro r member
          have before := absent r member
          have other := apart r member
          simp only [Store.isIndexed, listed, List.any_append, Bool.or_eq_false_iff] at before ⊢
          exact ⟨before, by simp [idText, other]⟩
        rcases Action.bind_cases later with ⟨e, failed, refused⟩ | ⟨entries, v, indexed, done⟩
        · obtain ⟨other, _⟩ := ih failed (refused ▸ undisturbed) texts others absent distinct
          cases other
        · cases done
          obtain ⟨same, rfl⟩ := ih indexed (by simp) texts others absent distinct
          cases same
          refine ⟨rfl, ?_⟩
          simp only [listed, numberedRows, idText, tagText, List.append_assoc, List.length_cons,
            List.singleton_append, Int.natCast_add, Int.add_assoc, Int.add_comm 1]
          rfl

theorem unindexIfDead_dead {id : RecordId} (dead : s.isDead id.text = true)
    (present : s.isIndexed id.text = true) :
    s.unindexIfDead id = (.ok true, { s with index := s.index.filter (·.id != id.text) }) := by
  rw [Store.unindexIfDead_eq, if_pos dead, Store.removeIndex, present]

theorem repairEach_stale {entries : List Drift} (dead : ∀ d ∈ entries, s.isDead d.id.text = true)
    (present : ∀ d ∈ entries, s.isIndexed d.id.text = true)
    (distinct : entries.Pairwise fun a b => a.id.text ≠ b.id.text) :
    (repairEach (fun d => call (Store.answer now) (.unindexIfDead d.id)) entries).outcome s =
      (.ok entries, { s with
        index := s.index.filter fun row => !entries.any fun d => d.id.text == row.id }) := by
  induction entries generalizing s with
  | nil =>
    have all : s.index.filter (fun row => !([] : List Drift).any fun d => d.id.text == row.id) =
        s.index := List.filter_eq_self.mpr fun _ _ => rfl
    rw [all]
    rfl
  | cons d rest ih =>
    obtain ⟨first, others⟩ := List.forall_mem_cons.mp dead
    obtain ⟨listed, present⟩ := List.forall_mem_cons.mp present
    obtain ⟨apart, distinct⟩ := List.pairwise_cons.mp distinct
    let u : Store := { s with index := s.index.filter (·.id != d.id.text) }
    have answered : Store.answer now (.unindexIfDead d.id) s = (.ok true, u) := by
      simp only [Store.answer, unindexIfDead_dead first listed, u]
    have present : ∀ e ∈ rest, u.isIndexed e.id.text = true := by
      intro e member
      obtain ⟨row, stored, names⟩ := (Store.isIndexed_iff s e.id.text).mp (present e member)
      refine (Store.isIndexed_iff _ _).mpr ⟨row, List.mem_filter.mpr ⟨stored, ?_⟩, names⟩
      simpa [names] using (apart e member).symm
    rw [repairEach, Action.outcome_call_bind answered,
      Action.outcome_bind_ok (ih (s := u) others present distinct)]
    have filters : u.index.filter (fun row => !rest.any fun d => d.id.text == row.id) =
        s.index.filter fun row => !(d :: rest).any fun d => d.id.text == row.id := by
      rw [List.filter_filter]
      refine List.filter_congr fun row _ => ?_
      rw [List.any_cons, Bool.not_or, Bool.and_comm, bne, Bool.beq_comm]
    rw [← filters]
    rfl

theorem missingRows_distinct (sound : Sound s) :
    (missingRows s).Pairwise fun a b => a.id ≠ b.id :=
  Store.apart_of_latest sound.keyed List.filter_sublist fun _ member =>
    ((mem_missingRows sound.keyed).mp member).1

theorem numberedRows_texts (last : Int) (rows : List VersionRow) :
    (numberedRows last rows).map (fun row => (row.id, row.tag)) =
      rows.map fun r => (r.id, r.tag) := by
  induction rows generalizing last with
  | nil => rfl
  | cons r rest ih => simp [numberedRows, ih]

theorem version_of_numbered {row : IndexRow} {last : Int} {rows : List VersionRow}
    (member : row ∈ numberedRows last rows) : ∃ r ∈ rows, r.id = row.id ∧ r.tag = row.tag := by
  have among := List.mem_map_of_mem (f := fun row : IndexRow => (row.id, row.tag)) member
  rw [numberedRows_texts] at among
  obtain ⟨r, stored, same⟩ := List.mem_map.mp among
  exact ⟨r, stored, Prod.mk.inj same⟩

theorem numbered_of_version {r : VersionRow} {rows : List VersionRow} (last : Int)
    (stored : r ∈ rows) : ∃ row ∈ numberedRows last rows, row.id = r.id ∧ row.tag = r.tag := by
  have among := List.mem_map_of_mem (f := fun r : VersionRow => (r.id, r.tag)) stored
  rw [← numberedRows_texts last] at among
  obtain ⟨row, member, same⟩ := List.mem_map.mp among
  exact ⟨row, member, Prod.mk.inj same⟩

theorem numberedRows_above {row : IndexRow} {last : Int} {rows : List VersionRow}
    (member : row ∈ numberedRows last rows) : last < row.sequence := by
  induction rows generalizing last with
  | nil => cases member
  | cons r rest ih =>
    rcases List.mem_cons.mp member with rfl | member
    · exact Int.lt_succ last
    · exact Int.lt_trans (Int.lt_succ last) (ih member)

/-- Rows of versions in the order of their numbers are numbered in that order. -/
theorem numberedRows_ordered {a b : IndexRow} {last : Int} {rows : List VersionRow}
    (increasing : rows.Pairwise fun v w => v.sequence < w.sequence)
    (memberA : a ∈ numberedRows last rows) (memberB : b ∈ numberedRows last rows) :
    ∃ v ∈ rows, ∃ w ∈ rows, v.id = a.id ∧ w.id = b.id ∧
      (v.sequence < w.sequence → a.sequence < b.sequence) := by
  induction rows generalizing last with
  | nil => cases memberA
  | cons r rest ih =>
    obtain ⟨first, increasing⟩ := List.pairwise_cons.mp increasing
    rcases List.mem_cons.mp memberA with rfl | tailA <;>
      rcases List.mem_cons.mp memberB with rfl | tailB
    · exact ⟨r, List.mem_cons_self, r, List.mem_cons_self, rfl, rfl, fun less => by omega⟩
    · obtain ⟨w, stored, names, _⟩ := version_of_numbered tailB
      exact ⟨r, List.mem_cons_self, w, List.mem_cons_of_mem r stored, rfl, names,
        fun _ => numberedRows_above tailB⟩
    · obtain ⟨v, stored, names, _⟩ := version_of_numbered tailA
      refine ⟨v, List.mem_cons_of_mem r stored, r, List.mem_cons_self, names, rfl, fun less => ?_⟩
      have := first v stored
      omega
    · obtain ⟨v, storedV, w, storedW, rest⟩ := ih increasing tailA tailB
      exact ⟨v, List.mem_cons_of_mem r storedV, w, List.mem_cons_of_mem r storedW, rest⟩

theorem mem_of_texts {rows : List ρ} {texts : ρ → String × String} {entries : List Drift}
    {d : Drift} (same : entries.map Drift.texts = rows.map texts) (member : d ∈ entries) :
    ∃ r ∈ rows, texts r = (d.id.text, d.tag.text) := by
  have among := List.mem_map_of_mem (f := Drift.texts) member
  rw [same] at among
  exact List.mem_map.mp among

theorem mem_texts_of {rows : List ρ} {texts : ρ → String × String} {entries : List Drift} {r : ρ}
    (same : entries.map Drift.texts = rows.map texts) (member : r ∈ rows) :
    ∃ d ∈ entries, d.texts = texts r := by
  have among := List.mem_map_of_mem (f := texts) member
  rw [← same] at among
  exact List.mem_map.mp among

section Stale

variable {stale : List Drift}
  (texts : stale.map Drift.texts = (staleRows s).map fun r => (r.id, r.tag))
include texts

/-- The stale entries name the ids that are dead and indexed all the same. -/
theorem stale_any (id : String) :
    (stale.any fun d => d.id.text == id) = (s.isIndexed id && s.isDead id) := by
  rw [Bool.eq_iff_iff, List.any_eq_true, Bool.and_eq_true, Store.isIndexed_iff]
  simp only [beq_iff_eq]
  constructor
  · rintro ⟨d, member, names⟩
    obtain ⟨row, found, same⟩ := mem_of_texts texts member
    obtain ⟨stored, dead⟩ := List.mem_filter.mp found
    have rowId : row.id = id := (Prod.mk.inj same).1.trans names
    exact ⟨⟨row, stored, rowId⟩, rowId ▸ dead⟩
  · rintro ⟨⟨row, stored, rfl⟩, dead⟩
    obtain ⟨d, member, same⟩ := mem_texts_of texts (List.mem_filter.mpr ⟨stored, dead⟩)
    exact ⟨d, member, (Prod.mk.inj same).1⟩

theorem stale_distinct (sound : Sound s) : stale.Pairwise fun a b => a.id.text ≠ b.id.text := by
  have apart : ((staleRows s).map fun r => (r.id, r.tag)).Pairwise fun a b => a.1 ≠ b.1 :=
    List.pairwise_map.mpr (sound.single.sublist List.filter_sublist)
  rw [← texts, List.pairwise_map] at apart
  exact apart

end Stale

/-- Without the stale entries' rows the index has its live rows and the rows that were added. -/
theorem filter_stale (sound : Sound s) {stale : List Drift}
    (texts : stale.map Drift.texts = (staleRows s).map fun r => (r.id, r.tag)) (last : Int) :
    (s.index ++ numberedRows last (missingRows s)).filter
        (fun row => !stale.any fun d => d.id.text == row.id) =
      s.index.filter (fun row => !s.isDead row.id) ++ numberedRows last (missingRows s) := by
  simp only [stale_any texts, List.filter_append]
  congr 1
  · refine List.filter_congr fun row stored => ?_
    rw [(Store.isIndexed_iff s row.id).mpr ⟨row, stored, rfl⟩, Bool.true_and]
  · refine List.filter_eq_self.mpr fun row member => ?_
    obtain ⟨r, among, names, _⟩ := version_of_numbered member
    rw [← names, ((mem_missingRows sound.keyed).mp among).2.2]
    rfl

theorem reconcile_answer {r : Except Error IndexReport} (sound : Sound s)
    (met : (reconcile (Store.answer now)).outcome s = (r, t))
    (undisturbed : ∀ f, r ≠ .error (.store f)) :
    ∃ report, (∀ now, (audit (Store.answer now)).outcome s = (.ok report, s)) ∧
      report.missing.map Drift.texts = (missingRows s).map (fun r => (r.id, r.tag)) ∧
      report.stale.map Drift.texts = (staleRows s).map (fun r => (r.id, r.tag)) ∧
      r = .ok report ∧ t = repaired s := by
  obtain ⟨report, audited, missingTexts, staleTexts⟩ := audit_answer sound
  refine ⟨report, audited, missingTexts, staleTexts, ?_⟩
  rw [reconcile, Action.outcome_bind, audited now] at met
  have current : ∀ r ∈ missingRows s,
      r ∈ s.versions ∧ s.isLatest r = true ∧ isTombstone r.payload = false := by
    intro r member
    obtain ⟨latest, live, _⟩ := (mem_missingRows sound.keyed).mp member
    exact ⟨latest.stored, (Store.isLatest_iff sound.keyed latest.stored).mpr latest,
      (Store.isTombstone_eq_false_iff _).mpr live⟩
  have absent : ∀ r ∈ missingRows s, s.isIndexed r.id = false :=
    fun r member => ((mem_missingRows sound.keyed).mp member).2.2
  have distinct := missingRows_distinct sound
  rcases Action.bind_cases met with ⟨e, failed, refused⟩ | ⟨missing, u, added, rest⟩
  · have undisturbed : ∀ f, (.error e : Except Error (List Drift)) ≠ .error (.store f) := by
      intro f same
      cases same
      exact undisturbed f refused
    obtain ⟨other, _⟩ := repairEach_missing failed undisturbed missingTexts current absent distinct
    cases other
  · obtain ⟨same, rfl⟩ := repairEach_missing added (by simp) missingTexts current absent distinct
    cases same
    let u : Store := { s with
      index := s.index ++ numberedRows s.lastIndex (missingRows s)
      lastIndex := s.lastIndex + (missingRows s).length }
    have dead : ∀ d ∈ report.stale, u.isDead d.id.text = true := by
      intro d member
      obtain ⟨row, found, same⟩ := mem_of_texts staleTexts member
      rw [← (Prod.mk.inj same).1]
      exact (List.mem_filter.mp found).2
    have present : ∀ d ∈ report.stale, u.isIndexed d.id.text = true := by
      intro d member
      obtain ⟨row, found, same⟩ := mem_of_texts staleTexts member
      exact (Store.isIndexed_iff _ _).mpr
        ⟨row, List.mem_append_left _ (List.mem_filter.mp found).1, (Prod.mk.inj same).1⟩
    have distinct := stale_distinct staleTexts sound
    rw [Action.outcome_bind_ok (repairEach_stale (s := u) dead present distinct)] at rest
    cases rest
    refine ⟨rfl, ?_⟩
    simp only [u, filter_stale sound staleTexts]
    rfl

theorem repaired_live (id : String) : Live (repaired s) id ↔ Live s id :=
  Store.live_of_versions_eq rfl

/-- A missing id has one row more and a dead one none, so only the live ids are indexed. -/
theorem repaired_indexed (sound : Sound s) (id : String) :
    (repaired s).isIndexed id = true ↔ Live (repaired s) id := by
  rw [Store.isIndexed_iff, repaired_live]
  constructor
  · rintro ⟨row, stored, rfl⟩
    rcases List.mem_append.mp stored with old | new
    · have live := (List.mem_filter.mp old).2
      simp only [Bool.not_eq_true'] at live
      exact (Store.isDead_eq_false_iff sound.keyed).mp live
    · obtain ⟨r, among, names, _⟩ := version_of_numbered new
      obtain ⟨latest, live, _⟩ := (mem_missingRows sound.keyed).mp among
      exact names ▸ ⟨r, latest, live⟩
  · intro live
    by_cases present : s.isIndexed id = true
    · obtain ⟨row, stored, rfl⟩ := (Store.isIndexed_iff s id).mp present
      refine ⟨row, List.mem_append_left _ (List.mem_filter.mpr ⟨stored, ?_⟩), rfl⟩
      rw [(Store.isDead_eq_false_iff sound.keyed).mpr live]
      rfl
    · obtain ⟨r, latest, alive⟩ := live
      have missing : r ∈ missingRows s := by
        refine (mem_missingRows sound.keyed).mpr ⟨latest.names.symm ▸ latest, alive, ?_⟩
        rw [latest.names]
        exact Bool.eq_false_iff.mpr present
      obtain ⟨row, added, names, _⟩ := numbered_of_version s.lastIndex missing
      exact ⟨row, List.mem_append_right _ added, names.trans latest.names⟩

section Entries

variable {report : IndexReport} (sound : Sound s)
  (missingTexts : report.missing.map Drift.texts = (missingRows s).map fun r => (r.id, r.tag))
  (staleTexts : report.stale.map Drift.texts = (staleRows s).map fun r => (r.id, r.tag))

section Missing

include sound missingTexts

theorem missing_latest {d : Drift} (member : d ∈ report.missing) :
    ∃ v ∈ missingRows s, v.id = d.id.text ∧ v.tag = d.tag.text ∧ Latest s d.id.text v := by
  obtain ⟨v, among, same⟩ := mem_of_texts missingTexts member
  obtain ⟨idText, tagText⟩ := Prod.mk.inj same
  exact ⟨v, among, idText, tagText, idText ▸ ((mem_missingRows sound.keyed).mp among).1⟩

theorem repaired_missing {d : Drift} (member : d ∈ report.missing) :
    ∃ v, Latest s d.id.text v ∧ v.tag = d.tag.text ∧
      ∃ row ∈ (repaired s).index, row.id = d.id.text ∧ row.tag = v.tag ∧
        ∀ old ∈ s.index, old.sequence < row.sequence := by
  obtain ⟨v, among, idText, tagText, latest⟩ := missing_latest sound missingTexts member
  obtain ⟨row, new, rowId, rowTag⟩ := numbered_of_version s.lastIndex among
  refine ⟨v, latest, tagText, row, List.mem_append_right _ new, rowId.trans idText, rowTag, ?_⟩
  intro old stored
  have := sound.index.used old.sequence (List.mem_map.mpr ⟨old, stored, rfl⟩)
  have := numberedRows_above new
  omega

/-- The row of an id that was missing is one of those that were added. -/
theorem repaired_added {d : Drift} (member : d ∈ report.missing) {row : IndexRow}
    (stored : row ∈ (repaired s).index) (names : row.id = d.id.text) :
    row ∈ numberedRows s.lastIndex (missingRows s) := by
  obtain ⟨v, among, idText, _⟩ := missing_latest sound missingTexts member
  rcases List.mem_append.mp stored with old | new
  · have absent := ((mem_missingRows sound.keyed).mp among).2.2
    have other := (Store.isIndexed_eq_false_iff s v.id).mp absent row (List.mem_filter.mp old).1
    exact absurd (names.trans idText.symm) other
  · exact new

theorem repaired_ordered {d e : Drift} (memberD : d ∈ report.missing) (memberE : e ∈ report.missing)
    {v w : VersionRow} (latestV : Latest s d.id.text v) (latestW : Latest s e.id.text w)
    (less : v.sequence < w.sequence) {a b : IndexRow} (storedA : a ∈ (repaired s).index)
    (storedB : b ∈ (repaired s).index) (namesA : a.id = d.id.text) (namesB : b.id = e.id.text) :
    a.sequence < b.sequence := by
  have increasing : (missingRows s).Pairwise fun v w => v.sequence < w.sequence :=
    (List.pairwise_map.mp sound.versions.increasing).sublist List.filter_sublist
  obtain ⟨v', amongV, w', amongW, idV, idW, ordered⟩ := numberedRows_ordered increasing
    (repaired_added sound missingTexts memberD storedA namesA)
    (repaired_added sound missingTexts memberE storedB namesB)
  obtain ⟨latestV', _⟩ := (mem_missingRows sound.keyed).mp amongV
  obtain ⟨latestW', _⟩ := (mem_missingRows sound.keyed).mp amongW
  rw [idV, namesA] at latestV'
  rw [idW, namesB] at latestW'
  rw [latestV.unique sound.keyed latestV', latestW.unique sound.keyed latestW'] at less
  exact ordered less

omit sound in
theorem repaired_only {row : IndexRow} (stored : row ∈ (repaired s).index) :
    row ∈ s.index ∨ ∃ d ∈ report.missing, row.id = d.id.text ∧ row.tag = d.tag.text := by
  rcases List.mem_append.mp stored with old | new
  · exact .inl (List.mem_filter.mp old).1
  · obtain ⟨v, among, rowId, rowTag⟩ := version_of_numbered new
    obtain ⟨d, member, same⟩ := mem_texts_of missingTexts among
    obtain ⟨idText, tagText⟩ := Prod.mk.inj same
    exact .inr ⟨d, member, rowId.symm.trans idText.symm, rowTag.symm.trans tagText.symm⟩

end Missing

section Stale

include staleTexts

theorem repaired_stale (sound : Sound s) {d : Drift} (member : d ∈ report.stale) :
    (∃ row ∈ s.index, row.id = d.id.text ∧ row.tag = d.tag.text) ∧
      ∀ row ∈ (repaired s).index, row.id ≠ d.id.text := by
  obtain ⟨row, found, same⟩ := mem_of_texts staleTexts member
  obtain ⟨idText, tagText⟩ := Prod.mk.inj same
  obtain ⟨stored, dead⟩ := (mem_staleRows sound.keyed).mp found
  refine ⟨⟨row, stored, idText, tagText⟩, ?_⟩
  intro other listed names
  have live := (repaired_indexed sound other.id).mp
    ((Store.isIndexed_iff _ _).mpr ⟨other, listed, rfl⟩)
  rw [names, ← idText] at live
  exact dead ((repaired_live row.id).mp live)

theorem repaired_kept {row : IndexRow} (stored : row ∈ s.index)
    (spared : ∀ d ∈ report.stale, row.id ≠ d.id.text) : row ∈ (repaired s).index := by
  have unnamed : (report.stale.any fun d => d.id.text == row.id) = false := by
    simp only [List.any_eq_false, beq_iff_eq]
    exact fun d member same => spared d member same.symm
  rw [stale_any staleTexts, (Store.isIndexed_iff s row.id).mpr ⟨row, stored, rfl⟩] at unnamed
  exact List.mem_append_left _ (List.mem_filter.mpr ⟨stored, by simpa using unnamed⟩)

end Stale

end Entries

structure Repaired (s : Store) (report : IndexReport) (t : Store) : Prop where
  audited : ∀ now, (audit (Store.answer now)).outcome s = (.ok report, s)
  history : t.versions = s.versions
  indexed : ∀ id : RecordId, (∃ row ∈ t.index, row.id = id.text) ↔
    ∃ v, Latest t id.text v ∧ v.payload ≠ tombstone
  single : ∀ id : RecordId, (t.index.filter (·.id = id.text)).length ≤ 1
  /-- A missing id gets a row behind all others, under the tag of its latest version. -/
  missing : ∀ d ∈ report.missing, ∃ v, Latest s d.id.text v ∧ v.tag = d.tag.text ∧
    ∃ row ∈ t.index, row.id = d.id.text ∧ row.tag = v.tag ∧
      ∀ old ∈ s.index, old.sequence < row.sequence
  /-- The new rows are in the order of the latest versions. -/
  ordered : ∀ d ∈ report.missing, ∀ e ∈ report.missing, ∀ v w,
    Latest s d.id.text v → Latest s e.id.text w → v.sequence < w.sequence →
    ∀ a ∈ t.index, ∀ b ∈ t.index, a.id = d.id.text → b.id = e.id.text → a.sequence < b.sequence
  stale : ∀ d ∈ report.stale,
    (∃ row ∈ s.index, row.id = d.id.text ∧ row.tag = d.tag.text) ∧
      ∀ row ∈ t.index, row.id ≠ d.id.text
  kept : ∀ row ∈ s.index, (∀ d ∈ report.stale, row.id ≠ d.id.text) → row ∈ t.index
  only : ∀ row ∈ t.index, row ∈ s.index ∨
    ∃ d ∈ report.missing, row.id = d.id.text ∧ row.tag = d.tag.text
  settled : ∀ now, (audit (Store.answer now)).outcome t = (.ok ⟨[], []⟩, t)
  stable : ∀ now, (reconcile (Store.answer now)).outcome t = (.ok ⟨[], []⟩, t)

/-- From any store that calls lead to, whatever its index has become, a reconciliation none of whose
calls fails reports what an audit finds there and leaves an index without drift. -/
theorem reconcile_repairs {r : Except Error IndexReport} (reached : Store.Reached s)
    (met : (reconcile (Store.answer now)).outcome s = (r, t))
    (undisturbed : ∀ f, r ≠ .error (.store f)) :
    ∃ report, r = .ok report ∧ Repaired s report t := by
  have sound := reached.sound
  have step : Advance s ⟨now, .reconcile, r, t⟩ := ⟨met, undisturbed⟩
  have after : Sound t := (step.reached reached).sound
  obtain ⟨report, audited, missingTexts, staleTexts, rfl, rfl⟩ :=
    reconcile_answer sound met undisturbed
  have indexed := repaired_indexed sound
  refine ⟨report, rfl, ?_⟩
  exact {
    audited
    history := rfl
    indexed id := by rw [← Store.isIndexed_iff]; exact indexed id.text
    single id := after.rows_le_one id.text
    missing _ := repaired_missing sound missingTexts
    ordered _ memberD _ memberE _ _ latestV latestW less _ storedA _ storedB :=
      repaired_ordered sound missingTexts memberD memberE latestV latestW less storedA storedB
    stale _ := repaired_stale staleTexts sound
    kept _ := repaired_kept staleTexts
    only _ := repaired_only missingTexts
    settled now := audit_indexed now after indexed
    stable now := reconcile_indexed now after indexed }

/-- A live record without an index row, an index row without history, and a deleted record that is
still indexed, all at once. -/
def drifted (tag : Tag) : Store :=
  let id (octet : UInt8) : RecordId := ⟨List.replicate 16 octet, List.length_replicate⟩
  (Store.answer default : Store.Backend Store).runAll
    [.insertVersion (id 1) tag "[1]", .upsertIndex (id 2) tag, .upsertIndex (id 3) tag,
      .insertVersion (id 3) tag tombstone] .empty

theorem drifted_repaired :
    let s := drifted ⟨"app.note", by decide⟩
    let left := (reconcile (Store.answer ⟨6, rfl⟩)).outcome s
    left.2.index.map (·.sequence) = [3] ∧ Store.Reached s ∧ (∀ f, left.1 ≠ .error (.store f)) ∧
    ∃ report, left.1 = .ok report ∧ Repaired s report left.2 := by
  intro s left
  have reached : Store.Reached s := Store.Reached.empty.runAll _ _ (by decide)
  have undisturbed : ∀ f, left.1 ≠ .error (.store f) := by
    have passed : left.1.isOk = true := by decide +kernel
    intro f failed
    rw [failed] at passed
    cases passed
  have met : (reconcile (Store.answer ⟨6, rfl⟩)).outcome s = (left.1, left.2) := (Prod.eta _).symm
  exact ⟨by decide +kernel, reached, undisturbed, reconcile_repairs reached met undisturbed⟩

end RecordLedger.Ledger
