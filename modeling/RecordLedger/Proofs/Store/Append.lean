import RecordLedger.Proofs.Store.Latest

/-! A version appended to the history and the index brought in line with it. The stamp makes the new
version the latest one of its id, so the index step has to look at nothing but that version. -/
namespace RecordLedger.Store

variable {s t : Store} {id : String} {row r : VersionRow}

theorem readTimestamp_eq_ok_iff (n : Int) (at_ : Instant) :
    readTimestamp n = .ok at_ ↔ n = at_.micros := by
  unfold readTimestamp Instant.ofMicros?
  split
  · next found =>
    split at found
    · cases found
      constructor
      · intro read; cases read; rfl
      · intro same; cases at_; cases same; rfl
    · cases found
  · next found =>
    split at found
    · cases found
    · next beyond =>
      simp only [false_iff, reduceCtorEq]
      intro same
      exact beyond (same ▸ at_.fits)

theorem fitsSigned_iff (n : Int) :
    Word.fitsSigned n = true ↔ Word.minSigned ≤ n ∧ n ≤ Word.maxSigned := by
  simp [Word.fitsSigned]

/-- A stamp inside the 64-bit range is beyond every earlier timestamp of the id. -/
theorem lt_stamp (now : Instant) (fits : s.stamp id now ≤ Word.maxSigned) (stored : r ∈ s.versions)
    (names : r.id = id) : r.timestamp < s.stamp id now := by
  cases found : s.latest? id with
  | none => exact absurd names (latest?_eq_none_iff.mp found r stored)
  | some newest =>
    have stamped : s.stamp id now =
        max now.micros (min (newest.timestamp + 1) pastLastTimestamp) := by
      simp [stamp, earliestNext?_eq, found]
    have last := (latest?_latest found).last r stored names
    simp only [NotLater] at last
    simp only [Word.maxSigned, pastLastTimestamp] at fits stamped
    omega

theorem le_stamp (now : Instant) : now.micros ≤ s.stamp id now := Int.le_max_left _ _

/-- A clock that is ahead of the id's versions is taken as it is. -/
theorem stamp_eq (now : Instant)
    (ahead : ∀ r ∈ s.versions, r.id = id → r.timestamp < now.micros) :
    s.stamp id now = now.micros := by
  cases found : s.latest? id with
  | none => simp [stamp, earliestNext?_eq, found]
  | some newest =>
    have latest := latest?_latest found
    have before := ahead newest latest.stored latest.names
    simp only [stamp, earliestNext?_eq, found, Option.map_some, Option.getD_some]
    omega

/-- Where all timestamps of an id are before the last instant, its next stamp fits. -/
theorem stamp_fits (now : Instant)
    (early : ∀ r ∈ s.versions, r.id = id → r.timestamp < Word.maxSigned) :
    Word.fitsSigned (s.stamp id now) = true := by
  have reading := (fitsSigned_iff _).mp now.fits
  rw [fitsSigned_iff]
  cases found : s.latest? id with
  | none => simpa [stamp, earliestNext?_eq, found] using reading
  | some newest =>
    have latest := latest?_latest found
    have below := early newest latest.stored latest.names
    have stamped : s.stamp id now =
        max now.micros (min (newest.timestamp + 1) pastLastTimestamp) := by
      simp [stamp, earliestNext?_eq, found]
    simp only [Word.maxSigned, Word.minSigned, pastLastTimestamp] at *
    omega

theorem latest_of_versions_eq (same : t.versions = s.versions) : Latest t id r ↔ Latest s id r := by
  constructor
  · exact fun latest => ⟨same ▸ latest.stored, latest.names, same ▸ latest.last⟩
  · exact fun latest => ⟨same.symm ▸ latest.stored, latest.names, same.symm ▸ latest.last⟩

theorem live_of_versions_eq (same : t.versions = s.versions) : Live t id ↔ Live s id := by
  simp only [Live, latest_of_versions_eq same]

theorem mem_push (grown : t.versions = s.versions ++ [row]) :
    r ∈ t.versions ↔ r ∈ s.versions ∨ r = row := by
  rw [grown, List.mem_append, List.mem_singleton]

theorem latest_push_same (grown : t.versions = s.versions ++ [row])
    (later : ∀ r ∈ s.versions, r.id = row.id → r.timestamp < row.timestamp) :
    Latest t row.id r ↔ r = row := by
  constructor
  · intro latest
    rcases (mem_push grown).mp latest.stored with old | new
    · have before := later r old latest.names
      have after := latest.last row ((mem_push grown).mpr (.inr rfl)) rfl
      simp only [NotLater] at after
      omega
    · exact new
  · rintro rfl
    refine ⟨(mem_push grown).mpr (.inr rfl), rfl, ?_⟩
    intro other stored names
    rcases (mem_push grown).mp stored with old | rfl
    · exact .inl (later other old names)
    · exact .refl _

theorem latest_push_other (grown : t.versions = s.versions ++ [row]) (other : row.id ≠ id) :
    Latest t id r ↔ Latest s id r := by
  constructor
  · intro latest
    refine ⟨?_, latest.names, fun r stored => latest.last r ((mem_push grown).mpr (.inl stored))⟩
    rcases (mem_push grown).mp latest.stored with old | rfl
    · exact old
    · exact absurd latest.names other
  · intro latest
    refine ⟨(mem_push grown).mpr (.inl latest.stored), latest.names, ?_⟩
    intro r stored names
    rcases (mem_push grown).mp stored with old | rfl
    · exact latest.last r old names
    · exact absurd names other

theorem live_push_same (grown : t.versions = s.versions ++ [row])
    (later : ∀ r ∈ s.versions, r.id = row.id → r.timestamp < row.timestamp) :
    Live t row.id ↔ row.payload ≠ tombstone := by
  simp [Live, latest_push_same grown later]

theorem live_push_other (grown : t.versions = s.versions ++ [row]) (other : row.id ≠ id) :
    Live t id ↔ Live s id := by
  simp only [Live, latest_push_other grown other]

inductive Synced (s : Store) (id : RecordId) (tag : Tag) (payload : String) :
    List IndexRow → Prop
  | removed (dead : payload = tombstone) :
      Synced s id tag payload (s.index.filter (·.id != id.text))
  | kept (live : payload ≠ tombstone) (present : s.isIndexed id.text = true) :
      Synced s id tag payload s.index
  | added (live : payload ≠ tombstone) (absent : s.isIndexed id.text = false) (n : Int)
      (free : next? s.lastIndex = some n) :
      Synced s id tag payload (s.index ++ [⟨n, id.text, tag.text⟩])

theorem Synced.of_index_eq {i : RecordId} {tag : Tag} {payload : String} {index : List IndexRow}
    (synced : Synced t i tag payload index) (rows : t.index = s.index)
    (last : t.lastIndex = s.lastIndex) : Synced s i tag payload index := by
  have indexed : t.isIndexed i.text = s.isIndexed i.text := by simp [isIndexed, rows]
  cases synced with
  | removed dead => exact rows ▸ .removed dead
  | kept live present => exact rows ▸ .kept live (indexed ▸ present)
  | added live absent n free => exact rows ▸ .added live (indexed ▸ absent) n (last ▸ free)

theorem Synced.mem_cases {i : RecordId} {tag : Tag} {payload : String} {index : List IndexRow}
    {row : IndexRow} (synced : Synced s i tag payload index) (listed : row ∈ index) :
    row ∈ s.index ∨ ∃ n, row = ⟨n, i.text, tag.text⟩ := by
  cases synced with
  | removed dead => exact .inl (List.mem_filter.mp listed).1
  | kept live present => exact .inl listed
  | added live absent n free =>
    rcases List.mem_append.mp listed with old | new
    · exact .inl old
    · exact .inr ⟨n, List.mem_singleton.mp new⟩

theorem Synced.isIndexed_same {tag : Tag} {i : RecordId} (synced : Synced s i tag payload t.index) :
    t.isIndexed i.text = true ↔ payload ≠ tombstone := by
  generalize rows : t.index = index at synced
  cases synced with
  | removed dead => simp [isIndexed, rows, dead]
  | kept live present => simpa [isIndexed, rows, live] using present
  | added live absent n free => simp [isIndexed, rows, live]

theorem Synced.isIndexed_other {tag : Tag} {i : RecordId} (synced : Synced s i tag payload t.index)
    (other : i.text ≠ id) : t.isIndexed id = s.isIndexed id := by
  generalize rows : t.index = index at synced
  cases synced with
  | removed dead =>
    simp only [isIndexed, rows, List.any_filter]
    congr 1
    funext r
    by_cases same : r.id = id
    · simp [same, Ne.symm other]
    · simp [same]
  | kept live present => simp [isIndexed, rows]
  | added live absent n free => simp [isIndexed, rows, other]

theorem takes_iff : s.takes r = true ↔ s.versions.length < maxRows ∧ r.bytes ≤ maxBytes := by
  rw [takes, VersionRow.fitsAmong, Bool.and_eq_true, decide_eq_true_iff, decide_eq_true_iff]

theorem insertVersion_ok {i : RecordId} {tag : Tag} {payload : String}
    (made : s.insertVersion now i tag payload = (.ok v, t)) :
    ∃ n at_, next? s.lastVersion = some n ∧ s.stamp i.text now = at_.micros ∧
      s.takes (s.newRow now i tag payload n) = true ∧
      v = ⟨Word.unsigned n, i, tag, payload, at_⟩ ∧
      t = { s with
        versions := s.versions ++ [s.newRow now i tag payload n], lastVersion := n } := by
  unfold insertVersion at made
  split at made
  · cases made
  · next n free =>
    dsimp only at made
    split at made
    · next taken =>
      split at made
      · next at_ read =>
        cases made
        exact ⟨n, at_, free, (readTimestamp_eq_ok_iff _ _).mp read, taken, rfl, rfl⟩
      · cases made
    · cases made

/-- While the timestamps of the id are before the last instant, a failed insertion leaves no row. -/
theorem insertVersion_error {i : RecordId} {tag : Tag} {payload : String}
    (early : ∀ r ∈ s.versions, r.id = i.text → r.timestamp < Word.maxSigned)
    (made : s.insertVersion now i tag payload = (.error e, t)) : t = s := by
  unfold insertVersion at made
  split at made
  · cases made; rfl
  · dsimp only at made
    split at made
    · split at made
      · cases made
      · next refused =>
        have readable : readTimestamp (s.stamp i.text now) = .ok ⟨_, stamp_fits now early⟩ :=
          (readTimestamp_eq_ok_iff _ _).mpr rfl
        rw [readable] at refused
        cases refused
    · cases made; rfl

def syncing (id : RecordId) (tag : Tag) (payload : String) : Call :=
  if isTombstone payload then .removeIndex id else .upsertIndex id tag

theorem upsertIndex_error {i : RecordId} {tag : Tag} (made : s.upsertIndex i tag = (.error e, t)) :
    t = s ∧ next? s.lastIndex = none := by
  unfold upsertIndex at made
  split at made
  · next full => cases made; exact ⟨rfl, full⟩
  · split at made <;> cases made

theorem answer_syncing_ok {i : RecordId} {tag : Tag} {payload : String}
    {x : (syncing i tag payload).Answer}
    (made : answer now (syncing i tag payload) s = (.ok x, t)) :
    t.versions = s.versions ∧ Synced s i tag payload t.index := by
  generalize asked : syncing i tag payload = c at x made
  unfold syncing at asked
  split at asked
  · next dead =>
    subst asked
    cases made
    exact ⟨rfl, .removed ((isTombstone_iff payload).mp dead)⟩
  · next live =>
    subst asked
    have live : payload ≠ tombstone := by simpa [isTombstone_iff] using live
    simp only [answer, upsertIndex] at made
    split at made
    · cases made
    · next n free =>
      split at made
      · next present => cases made; exact ⟨rfl, .kept live present⟩
      · next absent => cases made; exact ⟨rfl, .added live (Bool.eq_false_iff.mpr absent) n free⟩

/-- The index step fails for a live payload alone, and for want of a number alone. -/
theorem answer_syncing_error {i : RecordId} {tag : Tag} {payload : String}
    (made : answer now (syncing i tag payload) s = (.error e, t)) :
    t = s ∧ payload ≠ tombstone ∧ next? s.lastIndex = none := by
  generalize asked : syncing i tag payload = c at made
  unfold syncing at asked
  split at asked
  · subst asked; cases made
  · next live =>
    subst asked
    obtain ⟨same, full⟩ := upsertIndex_error made
    exact ⟨same, by simpa [isTombstone_iff] using live, full⟩

end RecordLedger.Store
