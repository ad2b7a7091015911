import RecordLedger.Proofs.Ledger.Slice
import RecordLedger.Proofs.Store.Accord

/-! Many records at once. The latest versions of a list of ids are read by one statement, in no
order that the caller knows of, and put into the order in which the list first names them. One that
cannot be decoded fails the whole list. -/
namespace RecordLedger

/-- A part of a list that keeps two elements keeps the order of their first places. -/
theorem idxOf_lt_of_filter [BEq α] [LawfulBEq α] {p : α → Bool} {xs : List α} {a b : α}
    (keepsA : p a = true) (keepsB : p b = true)
    (before : (xs.filter p).idxOf a < (xs.filter p).idxOf b) : xs.idxOf a < xs.idxOf b := by
  induction xs with
  | nil => exact before
  | cons x xs ih =>
    by_cases firstB : x = b
    · subst firstB
      rw [List.filter_cons_of_pos keepsB, List.idxOf_cons_self] at before
      exact absurd before (Nat.not_lt_zero _)
    · by_cases firstA : x = a
      · subst firstA
        rw [List.idxOf_cons_self, List.idxOf_cons_ne _ firstB]
        exact Nat.succ_pos _
      · rw [List.idxOf_cons_ne _ firstA, List.idxOf_cons_ne _ firstB]
        refine Nat.succ_lt_succ (ih ?_)
        by_cases kept : p x = true
        · rw [List.filter_cons_of_pos kept, List.idxOf_cons_ne _ firstA,
            List.idxOf_cons_ne _ firstB] at before
          exact Nat.lt_of_succ_lt_succ before
        · rwa [List.filter_cons_of_neg kept] at before

/-- Without its repeats a list names its elements in the order of their first places. -/
theorem eraseDups_idxOf [BEq α] [LawfulBEq α] (xs : List α) :
    xs.eraseDups.Pairwise fun a b => xs.idxOf a < xs.idxOf b := by
  -- By the length: behind the first element go on with what its repeats are filtered out of.
  induction size : xs.length using Nat.strongRecOn generalizing xs with
  | ind n ih =>
    cases xs with
    | nil => exact .nil
    | cons x xs =>
      have fewer := List.length_filter_le (fun y => !y == x) xs
      rw [List.length_cons] at size
      have rest := ih _ (by omega) (xs.filter fun y => !y == x) rfl
      have other {y : α} (among : y ∈ (xs.filter fun y => !y == x).eraseDups) : x ≠ y := by
        have kept := (List.mem_filter.mp (List.mem_eraseDups.mp among)).2
        rintro rfl
        simp at kept
      rw [List.eraseDups_cons]
      refine List.pairwise_cons.mpr ⟨fun y among => ?_, rest.imp_of_mem ?_⟩
      · rw [List.idxOf_cons_self, List.idxOf_cons_ne _ (other among)]
        exact Nat.succ_pos _
      · intro a b amongA amongB before
        rw [List.idxOf_cons_ne _ (other amongA), List.idxOf_cons_ne _ (other amongB)]
        refine Nat.succ_lt_succ (idxOf_lt_of_filter ?_ ?_ before)
        · exact (List.mem_filter.mp (List.mem_eraseDups.mp amongA)).2
        · exact (List.mem_filter.mp (List.mem_eraseDups.mp amongB)).2

theorem nodup_eraseDups [BEq α] [LawfulBEq α] (xs : List α) : xs.eraseDups.Nodup :=
  (eraseDups_idxOf xs).imp fun before same =>
    Nat.ne_of_lt before (congrArg (List.idxOf · xs) same)

/-- A version is determined by its row. -/
theorem Version.row_inj {u v : Version} (wordU : u.sequence ≤ Word.maxUnsigned)
    (wordV : v.sequence ≤ Word.maxUnsigned) (same : u.row = v.row) : u = v := by
  obtain ⟨sequence, id, tag, payload, timestamp⟩ := u
  obtain ⟨sequence', id', tag', payload', timestamp'⟩ := v
  simp only [Version.row, Store.VersionRow.mk.injEq] at same
  obtain ⟨number, texts, tags, rfl, times⟩ := same
  obtain rfl := RecordId.text_injective _ _ texts
  obtain rfl := (Tag.text_inj _ _).mp tags
  obtain rfl := Instant.micros_injective _ _ times
  have numbers := congrArg Word.unsigned number
  rw [Word.unsigned_signed wordU, Word.unsigned_signed wordV] at numbers
  cases numbers
  rfl

namespace Ledger

open Store (Keyed Worded Latest Readable Spoiled VersionRow)

variable {s : Store} {ids : List RecordId}

theorem any_eraseDups (ids : List RecordId) (p : RecordId → Bool) :
    ids.eraseDups.any p = ids.any p := by
  rw [Bool.eq_iff_iff, List.any_eq_true, List.any_eq_true]
  simp only [List.mem_eraseDups]

/-- Only the first place of each id matters. -/
theorem fetchIn_eraseDups (now : Instant) (s : Store) (few : ids.length ≤ Store.maxParameters) :
    (fetchIn (Store.answer now) ids.eraseDups).outcome s =
      (fetchIn (Store.answer now) ids).outcome s := by
  have fewer : ids.eraseDups.length ≤ Store.maxParameters :=
    Nat.le_trans ((nodup_eraseDups ids).length_le_of_subset fun _ => List.mem_eraseDups.mp) few
  have asked : s.askedRows ids.eraseDups = s.askedRows ids := by
    simp only [Store.askedRows, any_eraseDups]
  have answered : Store.answer now (.latestVersionsIn ids.eraseDups) s =
      Store.answer now (.latestVersionsIn ids) s := by
    simp only [Store.answer, Store.latestVersionsIn_few fewer, Store.latestVersionsIn_few few, asked]
  simp only [fetchIn, latestInOrder, Action.outcome_bind, Action.outcome_call, answered, arranged,
    eraseDups_of_nodup (nodup_eraseDups ids)]

def Decodes (r : VersionRow) : Prop :=
  Word.fitsSigned r.timestamp = true ∧ ∃ tag : Tag, tag.text = r.tag

structure Hydrated (s : Store) (ids : List RecordId) (records : List Version) : Prop where
  /-- One for each id that has a version, and no other. -/
  known : ∀ id, id ∈ records.map (·.id) ↔ id ∈ ids ∧ ∃ r ∈ s.versions, r.id = id.text
  /-- Each once, in the order of the first places of the ids. -/
  ordered : (records.map (·.id)).Pairwise fun a b => ids.idxOf a < ids.idxOf b
  latest : ∀ v ∈ records, Latest s v.id.text v.row
  /-- The history of a record begins with it, unless another of its versions cannot be decoded. -/
  newest : ∀ v ∈ records,
    (∃ older, ∀ now, (history (Store.answer now) v.id).outcome s =
      (.ok (.unpaginated (v :: older)), s)) ∨
    ∃ r ∈ s.versions, r.id = v.id.text ∧ ¬ Decodes r

/-- The ids of the latest rows are those that have rows. -/
theorem texts_of_latest (s : Store) (ids : List RecordId) :
    (ids.filterMap fun id => s.latest? id.text).map (·.id) =
      (ids.filter fun id => (s.latest? id.text).isSome).map (·.text) := by
  rw [List.map_filterMap, ← List.filterMap_eq_map, List.filterMap_filter]
  refine List.filterMap_congr fun id _ => ?_
  cases found : s.latest? id.text with
  | none => rfl
  | some r => exact congrArg some (Store.latest?_latest found).names

/-- The history of a record begins with its latest version if all its versions can be decoded. -/
theorem history_begins (worded : Worded s) {v : Version} (word : v.sequence ≤ Word.maxUnsigned)
    (latest : s.latest? v.id.text = some v.row)
    (decodes : ∀ r ∈ s.versions, r.id = v.id.text → Decodes r) :
    ∃ older, ∀ now, (history (Store.answer now) v.id).outcome s =
      (.ok (.unpaginated (v :: older)), s) := by
  have stored : ∀ r ∈ s.rowsOf v.id.text, r ∈ s.versions ∧ r.id = v.id.text :=
    fun r => Store.mem_rowsOf.mp
  obtain ⟨vs, read, rows⟩ := Store.readVersions_ok (s.rowsOf v.id.text)
    (fun r member => worded r (stored r member).1)
    (fun r member => (decodes r (stored r member).1 (stored r member).2).1)
    (fun r member => by
      obtain ⟨-, tag, tagText⟩ := decodes r (stored r member).1 (stored r member).2
      exact ⟨v.id, tag, (stored r member).2.symm, tagText⟩)
  obtain ⟨rest, shape⟩ := List.head?_eq_some_iff.mp latest
  rw [shape] at rows
  obtain ⟨w, older, rfl, same, -⟩ := List.map_eq_cons_iff.mp rows
  obtain rfl := Version.row_inj (Store.readVersions_words read w List.mem_cons_self) word same
  refine ⟨older, fun now => ?_⟩
  have answered : Store.answer now (.versions w.id) s = (.ok (w :: older), s) :=
    congrArg (·, s) read
  rw [history, Action.outcome_call_bind answered]
  rfl

theorem hydrated_of_rows {records : List Version} (worded : Worded s)
    (words : ∀ v ∈ records, v.sequence ≤ Word.maxUnsigned)
    (rows : records.map Version.row = ids.eraseDups.filterMap fun id => s.latest? id.text) :
    Hydrated s ids records := by
  have latest : ∀ v ∈ records, s.latest? v.id.text = some v.row := by
    intro v member
    have among := List.mem_map_of_mem (f := Version.row) member
    rw [rows] at among
    obtain ⟨id, -, found⟩ := List.mem_filterMap.mp among
    have names : v.id.text = id.text := (Store.latest?_latest found).names
    rwa [names]
  have places : records.map (·.id) =
      ids.eraseDups.filter fun id => (s.latest? id.text).isSome := by
    refine texts_inj ?_
    rw [← texts_of_latest, ← rows, List.map_map, List.map_map]
    rfl
  refine ⟨fun id => ?_, ?_, fun v member => ?_, fun v member => ?_⟩
  · have stored : (s.latest? id.text).isSome = true ↔ ∃ r ∈ s.versions, r.id = id.text := by
      rw [← Option.not_isNone, Bool.not_eq_true', ← Bool.not_eq_true, Option.isNone_iff_eq_none,
        Store.latest?_eq_none_iff]
      simp only [not_forall, not_not, exists_prop, ne_eq]
    rw [places, List.mem_filter, List.mem_eraseDups, stored]
  · rw [places]
    exact (eraseDups_idxOf ids).filter _
  · exact Store.latest?_latest (latest v member)
  · by_cases decodes : ∀ r ∈ s.versions, r.id = v.id.text → Decodes r
    · exact .inl (history_begins worded (words v member) (latest v member) decodes)
    · right
      simpa only [not_forall, exists_prop] using decodes

theorem fetchIn_failed {e : Store.Error} (now : Instant)
    (failed : s.latestVersionsIn ids = .error e) :
    (fetchIn (Store.answer now) ids).outcome s = (.error (.store e), s) := by
  rw [fetchIn, Action.outcome_bind, latestInOrder_failed now failed]

/-- A list of ids is answered by the latest versions of those of them that have any. -/
theorem fetchIn_hydrates (now : Instant) (keyed : Keyed s) (worded : Worded s)
    (few : ids.length ≤ Store.maxParameters) :
    (fetchIn (Store.answer now) ids).outcome s =
      (fetchIn (Store.answer now) ids.eraseDups).outcome s ∧
    ((∀ id ∈ ids, Readable s id.text) → ∃ records,
      (fetchIn (Store.answer now) ids).outcome s =
        (.ok ⟨records, ⟨records.length, false, false, records.head?.map (·.id),
          records.getLast?.map (·.id)⟩, none⟩, s) ∧
      Hydrated s ids records) ∧
    ((¬ ∀ id ∈ ids, Readable s id.text) → ∃ e,
      (fetchIn (Store.answer now) ids).outcome s = (.error (.store e), s) ∧ Spoiled s ids e) := by
  refine ⟨(fetchIn_eraseDups now s few).symm, fun readable => ?_, fun unreadable => ?_⟩
  · obtain ⟨records, answered, rows⟩ := latestInOrder_ok now keyed worded ids readable few
    refine ⟨records, ?_, hydrated_of_rows worded (latestInOrder_words answered) rows⟩
    rw [fetchIn, Action.outcome_bind_ok answered]
    rfl
  · obtain ⟨e, failed, spoiled⟩ := Store.latestVersionsIn_spoiled keyed few unreadable
    exact ⟨e, fetchIn_failed now failed, spoiled⟩

/-- Two records with versions under several tags and equal timestamps, asked for with a repeat and
with an id that has no version. -/
theorem contrary_hydrates :
    let tag : Tag := ⟨"app.note", by decide⟩
    let other : Tag := ⟨"app.memo", by decide⟩
    let id (octet : UInt8) : RecordId := ⟨List.replicate 16 octet, List.length_replicate⟩
    let s := Store.contrary tag other id
    let ids := [id 2, id 4, id 1, id 2]
    Keyed s ∧ Worded s ∧ ids.length ≤ Store.maxParameters ∧ (∀ id ∈ ids, Readable s id.text) ∧
      ∃ records, (fetchIn (Store.answer .epoch) ids).outcome s =
        (.ok ⟨records, ⟨2, false, false, some (id 2), some (id 1)⟩, none⟩, s) ∧
        Hydrated s ids records := by
  intro tag other id s ids
  have proper : Store.Proper s := Store.contrary_proper (by decide +kernel)
  have readable : ∀ id ∈ ids, Readable s id.text := fun _ _ r latest => by
    obtain ⟨-, tag, -, tagText⟩ := proper.versionTexts r latest.stored
    exact ⟨proper.dated r latest.stored, tag, tagText⟩
  have few : ids.length ≤ Store.maxParameters := by decide
  obtain ⟨-, whole, -⟩ := fetchIn_hydrates .epoch proper.keyed proper.words few
  obtain ⟨records, answered, hydrated⟩ := whole readable
  refine ⟨proper.keyed, proper.words, few, readable, records, ?_, hydrated⟩
  have places : ((fetchIn (Store.answer .epoch) ids).outcome s).1.toOption.map
      (·.remaining.map (·.id)) = some [id 2, id 1] := by decide +kernel
  rw [answered] at places
  have places : records.map (·.id) = [id 2, id 1] := Option.some.inj places
  have size : records.length = 2 := by simpa using congrArg List.length places
  rw [answered, size, ← List.head?_map, ← List.getLast?_map, places]
  rfl

def untagged (tag : Tag) (id other : RecordId) : Store :=
  ⟨[⟨1, id.text, tag.text, "1", 0⟩, ⟨2, other.text, "", "2", 0⟩], [], 2, 0⟩

/-- Both have a version, and no record is answered for a list of both. -/
theorem untagged_fails_batch :
    let tag : Tag := ⟨"app.note", by decide⟩
    let id (octet : UInt8) : RecordId := ⟨List.replicate 16 octet, List.length_replicate⟩
    let s := untagged tag (id 1) (id 2)
    Keyed s ∧ Worded s ∧
      (∀ asked ∈ [id 1, id 2], ∃ r ∈ s.versions, r.id = asked.text) ∧
      (fetchIn (Store.answer .epoch) [id 1, id 2]).outcome s =
        (.error (.store (.corruptRow 2 "invalid data type \"\": must not be empty")), s) := by
  intro tag id s
  refine ⟨⟨by simp [s, untagged], by simp [s, untagged]⟩, ?_, ?_,
    fetchIn_failed .epoch (by decide +kernel)⟩
  · simp [s, Worded, untagged, Word.minSigned, Word.maxSigned]
  · simp [s, untagged]

end Ledger
end RecordLedger
