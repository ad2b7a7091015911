import RecordLedger.Proofs.Store.Lookup

/-! Drift between the index and the history: which rows the store's two searches for it find, and
what its two repairs do to one id. All four go by the latest version. -/
namespace RecordLedger.Store

variable {s t : Store} {id : RecordId} {tag : Tag} {changed : Bool}

def missingRows (s : Store) : List VersionRow :=
  s.versions.filter fun r => s.isLatest r && !isTombstone r.payload && !s.isIndexed r.id

def staleRows (s : Store) : List IndexRow := s.index.filter fun r => s.isDead r.id

theorem mem_missingRows (keyed : Keyed s) {r : VersionRow} :
    r ∈ missingRows s ↔ Latest s r.id r ∧ r.payload ≠ tombstone ∧ s.isIndexed r.id = false := by
  simp only [missingRows, List.mem_filter, Bool.and_eq_true, Bool.not_eq_true',
    isTombstone_eq_false_iff]
  constructor
  · rintro ⟨stored, ⟨latest, live⟩, absent⟩
    exact ⟨(isLatest_iff keyed stored).mp latest, live, absent⟩
  · rintro ⟨latest, live, absent⟩
    have last := (isLatest_iff keyed latest.stored).mpr latest
    exact ⟨latest.stored, ⟨last, live⟩, absent⟩

theorem mem_staleRows (keyed : Keyed s) {r : IndexRow} :
    r ∈ staleRows s ↔ r ∈ s.index ∧ ¬ Live s r.id := by
  rw [staleRows, List.mem_filter, ← isDead_eq_false_iff keyed, Bool.not_eq_false]

theorem unindexedLive_read (spelled : ∀ r ∈ s.versions, Spelled r.id r.tag) :
    ∃ found, s.unindexedLive = .ok found ∧
      found.map (fun (id, tag) => (id.text, tag.text)) =
        (Sort.sort bySequence (missingRows s)).map fun r => (r.id, r.tag) := by
  refine mapM_ok _ _ _ fun r member => ?_
  obtain ⟨id, tag, idText, tagText⟩ :=
    spelled r (List.mem_filter.mp (Sort.mem_sort.mp member)).1
  refine ⟨(id, tag), ?_, by simp [idText, tagText]⟩
  simp only [← idText, ← tagText, readId_text, readTag_of_text]
  rfl

theorem staleIndexRows_read (spelled : ∀ r ∈ s.index, Spelled r.id r.tag) :
    ∃ found, s.staleIndexRows = .ok found ∧ found.map (fun e => (e.id.text, e.tag.text)) =
      (Sort.sort (fun a b => decide (a.sequence ≤ b.sequence)) (staleRows s)).map
        fun r => (r.id, r.tag) := by
  rw [staleIndexRows_eq]
  refine mapM_ok _ _ _ fun r member => ?_
  obtain ⟨id, tag, idText, tagText⟩ :=
    spelled r (List.mem_filter.mp (Sort.mem_sort.mp member)).1
  exact ⟨_, IndexRow.decode_ok idText tagText, by simp [idText, tagText]⟩

def Lacks (s : Store) (id : RecordId) (tag : Tag) : Prop :=
  s.isIndexed id.text = false ∧
    ∃ r, Latest s id.text r ∧ r.tag = tag.text ∧ r.payload ≠ tombstone

def Lingers (s : Store) (id : RecordId) : Prop := s.isIndexed id.text = true ∧ ¬ Live s id.text

structure Adds (s : Store) (id : RecordId) (tag : Tag) (changed : Bool) (t : Store) : Prop where
  history : t.versions = s.versions
  due : changed = true ↔ Lacks s id tag
  same : changed = false → t.index = s.index
  added : changed = true → t.index = s.index ++ [⟨s.lastIndex + 1, id.text, tag.text⟩]

structure Removes (s : Store) (id : RecordId) (changed : Bool) (t : Store) : Prop where
  history : t.versions = s.versions
  due : changed = true ↔ Lingers s id
  same : changed = false → t.index = s.index
  removed : changed = true → t.index = s.index.filter (·.id != id.text)

/-- Only the end of the numbers can keep an id from being indexed that should be. -/
theorem indexIfLive_cases (keyed : Keyed s) {r : Except Error Bool}
    (met : s.indexIfLive id tag = (r, t)) :
    (∃ changed, r = .ok changed ∧ Adds s id tag changed t) ∨
      (∃ e, r = .error e) ∧ t = s ∧ next? s.lastIndex = none := by
  unfold indexIfLive at met
  dsimp only at met
  split at met
  · next found =>
    obtain ⟨row, stored, fields⟩ := List.any_eq_true.mp found
    simp only [Bool.and_eq_true, beq_iff_eq, Bool.not_eq_true', isTombstone_eq_false_iff] at fields
    obtain ⟨⟨⟨names, tagged⟩, last⟩, live⟩ := fields
    have latest : Latest s id.text row := names ▸ (isLatest_iff keyed stored).mp last
    unfold upsertIndex at met
    split at met
    · next full =>
      cases met
      exact .inr ⟨⟨_, rfl⟩, rfl, full⟩
    · next n free =>
      obtain ⟨_, rfl⟩ := next?_eq_some_iff.mp free
      split at met
      · next present =>
        cases met
        refine .inl ⟨false, rfl, rfl, ⟨nofun, fun ⟨absent, _⟩ => ?_⟩, fun _ => rfl, nofun⟩
        rw [present] at absent
        cases absent
      · next absent =>
        cases met
        refine .inl ⟨true, rfl, rfl, ⟨fun _ => ?_, fun _ => rfl⟩, nofun, fun _ => rfl⟩
        exact ⟨Bool.eq_false_iff.mpr absent, row, latest, tagged, live⟩
  · next missing =>
    cases met
    refine .inl ⟨false, rfl, rfl, ⟨nofun, fun ⟨_, row, latest, tagged, live⟩ => ?_⟩, fun _ => rfl,
      nofun⟩
    refine absurd (List.any_eq_true.mpr ⟨row, latest.stored, ?_⟩) missing
    have last := (isLatest_iff keyed latest.stored).mpr (latest.names.symm ▸ latest)
    simp [latest.names, tagged, last, (isTombstone_eq_false_iff _).mpr live]

theorem indexIfLive_full (full : next? s.lastIndex = none) : (s.indexIfLive id tag).2 = s := by
  unfold indexIfLive
  dsimp only
  split
  · simp only [upsertIndex, full]
  · rfl

theorem unindexIfDead_removes (keyed : Keyed s) (id : RecordId) :
    ∃ changed t, s.unindexIfDead id = (.ok changed, t) ∧ Removes s id changed t := by
  rw [unindexIfDead_eq]
  split
  · next dead =>
    have gone : ¬ Live s id.text := by
      rw [← isDead_eq_false_iff keyed, dead]
      nofun
    refine ⟨_, _, rfl, rfl, ⟨fun present => ⟨present, gone⟩, And.left⟩, fun absent => ?_,
      fun _ => rfl⟩
    refine List.filter_eq_self.mpr fun row stored => ?_
    simpa using (isIndexed_eq_false_iff s _).mp absent row stored
  · next live =>
    refine ⟨false, s, rfl, rfl, ⟨nofun, fun ⟨_, gone⟩ => ?_⟩, fun _ => rfl, nofun⟩
    exact absurd ((isDead_eq_false_iff keyed).mp (Bool.eq_false_iff.mpr live)) gone

theorem Adds.keyed (adds : Adds s id tag changed t) (keyed : Keyed s) : Keyed t := by
  refine ⟨adds.history ▸ keyed.versions, ?_⟩
  cases changed with
  | false => exact adds.same rfl ▸ keyed.single
  | true =>
    rw [adds.added rfl]
    refine List.pairwise_append.mpr ⟨keyed.single, List.pairwise_singleton .., ?_⟩
    intro old stored new last
    rw [List.mem_singleton.mp last]
    exact (isIndexed_eq_false_iff s _).mp (adds.due.mp rfl).1 old stored

theorem Removes.keyed (removes : Removes s id changed t) (keyed : Keyed s) : Keyed t := by
  refine ⟨removes.history ▸ keyed.versions, ?_⟩
  cases changed with
  | false => exact removes.same rfl ▸ keyed.single
  | true => exact removes.removed rfl ▸ keyed.single.filter _

end RecordLedger.Store
