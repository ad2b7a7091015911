import RecordLedger.Proofs.Store.Listing

/-! The history of a store as a log: the versions that insertions have answered, in the order of the
calls. Numbers and timestamps follow that order, so every lookup of a record's versions can be said
of the log alone. -/
namespace RecordLedger

theorem Instant.micros_injective (a b : Instant) (same : a.micros = b.micros) : a = b := by
  cases a; cases b; cases same; rfl

def entries (log : List Version) (id : RecordId) : List Version := log.filter (·.id = id)

theorem mem_entries {log : List Version} {id : RecordId} {v : Version} :
    v ∈ entries log id ↔ v ∈ log ∧ v.id = id := by
  simp [entries]

theorem entries_append (xs ys : List Version) (id : RecordId) :
    entries (xs ++ ys) id = entries xs id ++ entries ys id := List.filter_append ..

def created (log : List Version) (v : Version) : Instant :=
  ((entries log v.id).head?.map (·.timestamp)).getD v.timestamp

namespace Store

variable {s t : Store} {log : List Version} {id : RecordId} {tag : Tag} {v : Version}

theorem mapM_map_ok {f : β → Except ε γ} {g : α → β} {h : α → γ} (xs : List α)
    (each : ∀ x ∈ xs, f (g x) = .ok (h x)) : (xs.map g).mapM f = .ok (xs.map h) := by
  induction xs with
  | nil => rfl
  | cons x xs ih =>
    have rest := ih fun y member => each y (List.mem_cons_of_mem x member)
    rw [List.map_cons, List.mapM_cons, each x List.mem_cons_self, rest]
    rfl

theorem fetch_row (v : Version) : v.row.fetch = .ok ⟨v.row, v.timestamp⟩ := by
  have read : readTimestamp v.row.timestamp = .ok v.timestamp :=
    (readTimestamp_eq_ok_iff _ _).mpr rfl
  rw [VersionRow.fetch, read]
  rfl

theorem row_sequence (word : (v.sequence : Int) ≤ Word.maxSigned) : v.row.sequence = v.sequence :=
  Word.signed_of_le word

theorem decode_row (word : v.sequence ≤ Word.maxUnsigned) :
    Fetched.decode ⟨v.row, v.timestamp⟩ = .ok v := by
  have number : Word.unsigned (Word.signed v.sequence) = v.sequence := Word.unsigned_signed word
  simp only [Fetched.decode, Version.row, readId_text, readTag_of_text, number]
  rfl

theorem readVersions_rows (words : ∀ v ∈ log, v.sequence ≤ Word.maxUnsigned) :
    readVersions (log.map Version.row) = .ok log := by
  have fetched := mapM_map_ok (g := Version.row) (h := fun v => (⟨v.row, v.timestamp⟩ : Fetched))
    log fun v _ => fetch_row v
  have decoded := mapM_map_ok (f := Fetched.decode) (h := id) log fun v member =>
    decode_row (words v member)
  rw [List.map_id] at decoded
  rw [readVersions, fetched]
  exact decoded

theorem readVersion?_row {found : Option Version}
    (words : ∀ v ∈ found, v.sequence ≤ Word.maxUnsigned) :
    readVersion? (found.map Version.row) = .ok found := by
  cases found with
  | none => rfl
  | some v =>
    simp only [Option.map_some, readVersion?, fetch_row, bind, Except.bind,
      decode_row (words v rfl)]
    rfl

structure Lists (s : Store) (id : RecordId) (vs : List Version) : Prop where
  rows : s.rowsOf id.text = vs.map Version.row
  words : ∀ v ∈ vs, v.sequence ≤ Word.maxUnsigned

namespace Lists

variable {vs : List Version} (lists : Lists s id vs)
include lists

theorem versionsOf_eq : s.versionsOf id = .ok vs := by
  rw [versionsOf, lists.rows]
  exact readVersions_rows lists.words

theorem find_eq (p : VersionRow → Bool) :
    readVersion? ((s.rowsOf id.text).find? p) = .ok (vs.find? fun v => p v.row) := by
  rw [lists.rows, List.find?_map]
  exact readVersion?_row fun v found => lists.words v (List.mem_of_find?_eq_some found)

theorem latestVersion_eq (tag : Tag) :
    s.latestVersion id tag = .ok (vs.find? (·.tag = tag)) := by
  rw [latestVersion_eq_find, lists.find_eq]
  congr 3
  funext v
  rw [Bool.eq_iff_iff, beq_iff_eq, decide_eq_true_iff]
  exact Tag.text_inj v.tag tag

end Lists

/-- `log` is the history of `s`. -/
structure Logged (log : List Version) (s : Store) : Prop where
  rows : s.versions = log.map Version.row
  numbered : Numbered (s.versions.map (·.sequence)) s.lastVersion
  words : ∀ v ∈ log, (v.sequence : Int) ≤ Word.maxSigned
  later : log.Pairwise fun u v => u.id = v.id → u.timestamp.micros < v.timestamp.micros

/-- `v` was inserted at a reading of the clock: it has the next number and the id's stamp. -/
structure Inserted (now : Instant) (s : Store) (v : Version) (t : Store) : Prop where
  free : s.lastVersion < Word.maxSigned
  number : v.sequence = Word.unsigned (s.lastVersion + 1)
  stamped : s.stamp v.id.text now = v.timestamp.micros
  grown : t.versions = s.versions ++ [v.row]
  last : t.lastVersion = s.lastVersion + 1

namespace Inserted

variable {now : Instant} (inserted : Inserted now s v t)
include inserted

theorem word (start : 0 ≤ s.lastVersion) : (v.sequence : Int) = s.lastVersion + 1 := by
  have free := inserted.free
  rw [inserted.number]
  exact Word.unsigned_of_nonneg (by omega) (by omega)

theorem above (numbered : Numbered (s.versions.map (·.sequence)) s.lastVersion) :
    ∀ r ∈ s.versions, r.sequence < v.sequence := by
  intro r stored
  have used : r.sequence ≤ s.lastVersion := numbered.used _ (List.mem_map_of_mem stored)
  have word := inserted.word numbered.start
  omega

theorem later : ∀ r ∈ s.versions, r.id = v.id.text → r.timestamp < v.timestamp.micros := by
  intro r stored names
  have fits := (fitsSigned_iff _).mp v.timestamp.fits
  rw [← inserted.stamped]
  exact lt_stamp now (inserted.stamped ▸ fits.2) stored names

end Inserted

theorem empty_logged : Logged [] empty :=
  ⟨rfl, empty_sound.versions, by simp, .nil⟩

namespace Logged

variable (logged : Logged log s)
include logged

theorem mem_versions {r : VersionRow} : r ∈ s.versions ↔ ∃ v ∈ log, v.row = r := by
  rw [logged.rows, List.mem_map]

theorem row_mem (member : v ∈ log) : v.row ∈ s.versions :=
  logged.mem_versions.mpr ⟨v, member, rfl⟩

theorem filter_rows (id : RecordId) :
    s.versions.filter (·.id == id.text) = (entries log id).map Version.row := by
  rw [logged.rows, List.filter_map, entries]
  congr 1
  refine List.filter_congr fun v _ => ?_
  rw [Function.comp_apply, Bool.eq_iff_iff, beq_iff_eq, decide_eq_true_iff]
  exact RecordId.text_inj v.id id

theorem entries_later (id : RecordId) :
    (entries log id).Pairwise fun u v => u.timestamp.micros < v.timestamp.micros := by
  refine (logged.later.filter _).imp_of_mem fun memberU memberV less => ?_
  exact less ((mem_entries.mp memberU).2.trans (mem_entries.mp memberV).2.symm)

theorem unsigned (member : v ∈ log) : v.sequence ≤ Word.maxUnsigned := by
  have word := logged.words v member
  simp only [Word.maxSigned, Word.maxUnsigned] at *
  omega

theorem rowsOf_eq (id : RecordId) :
    s.rowsOf id.text = (entries log id).reverse.map Version.row := by
  rw [rowsOf, logged.filter_rows, List.map_reverse]
  refine Sort.sort_eq_reverse _ (List.pairwise_map.mpr ((logged.entries_later id).imp ?_))
  intro u v less
  rw [Bool.eq_false_iff, ne_eq, newestFirst_iff]
  rintro (less' | ⟨same, _⟩)
  · exact Int.lt_asymm less less'
  · exact Int.ne_of_gt less same

theorem latest?_eq (id : RecordId) :
    s.latest? id.text = (entries log id).getLast?.map Version.row := by
  rw [latest?, logged.rowsOf_eq, List.head?_map, List.head?_reverse]

theorem lists (id : RecordId) : Lists s id (entries log id).reverse :=
  ⟨logged.rowsOf_eq id, fun _ member =>
    logged.unsigned (mem_entries.mp (List.mem_reverse.mp member)).1⟩

theorem versionsOf_eq (id : RecordId) : s.versionsOf id = .ok (entries log id).reverse :=
  (logged.lists id).versionsOf_eq

theorem latestVersion_eq (id : RecordId) (tag : Tag) :
    s.latestVersion id tag = .ok ((entries log id).reverse.find? (·.tag = tag)) :=
  (logged.lists id).latestVersion_eq tag

/-- The timestamps of a record are distinct, so the search may begin at its first version. -/
theorem versionAt_eq (id : RecordId) (tag : Tag) (at_ : Instant) :
    s.versionAt id tag at_ =
      .ok ((entries log id).find? fun v => v.tag = tag ∧ v.timestamp = at_) := by
  have test : (fun v : Version => v.row.tag == tag.text && v.row.timestamp == at_.micros) =
      fun v => decide (v.tag = tag ∧ v.timestamp = at_) := by
    funext v
    rw [Bool.eq_iff_iff, Bool.and_eq_true, beq_iff_eq, beq_iff_eq, decide_eq_true_iff]
    exact and_congr (Tag.text_inj v.tag tag)
      ⟨Instant.micros_injective _ _, congrArg Instant.micros⟩
  rw [versionAt_eq_find, (logged.lists id).find_eq, test]
  congr 1
  cases search : (entries log id).find? fun v => decide (v.tag = tag ∧ v.timestamp = at_) with
  | none =>
    rw [List.find?_eq_none] at search ⊢
    exact fun v member => search v (List.mem_reverse.mp member)
  | some v =>
    have member := List.mem_of_find?_eq_some search
    have meets := List.find?_some search
    refine find?_eq_some (List.mem_reverse.mpr member) meets fun u other fields => ?_
    have times := (decide_eq_true_iff.mp fields).2.trans (decide_eq_true_iff.mp meets).2.symm
    refine eq_of_pairwise (logged.entries_later id) (List.mem_reverse.mp other) member ?_ ?_ <;>
      rw [times] <;> exact Int.lt_irrefl _

theorem tagOf_eq (id : RecordId) : s.tagOf id = .ok ((entries log id).head?.map (·.tag)) := by
  have ordered : Sort.sort bySequence (s.versions.filter (·.id == id.text)) =
      s.versions.filter (·.id == id.text) := logged.numbered.sort_filter _
  rw [tagOf, ordered, logged.filter_rows, List.head?_map]
  cases (entries log id).head? with
  | none => rfl
  | some v =>
    simp only [Option.map_some, Version.row, readTag_of_text]
    rfl

theorem earliestTimestamp_eq (id : RecordId) :
    s.earliestTimestamp id = .ok ((entries log id).head?.map (·.timestamp)) := by
  rw [earliestTimestamp_eq_last, logged.rowsOf_eq, List.getLast?_map, List.getLast?_reverse]
  cases (entries log id).head? with
  | none => rfl
  | some v =>
    have read : readTimestamp v.row.timestamp = .ok v.timestamp :=
      (readTimestamp_eq_ok_iff _ _).mpr rfl
    simp only [Option.map_some, read]
    rfl

theorem stamp_eq_entries (id : RecordId) (now : Instant) :
    s.stamp id.text now =
      match (entries log id).getLast? with
      | none => now.micros
      | some v => max now.micros (min (v.timestamp.micros + 1) pastLastTimestamp) := by
  rw [stamp, earliestNext?_eq, logged.latest?_eq]
  cases (entries log id).getLast? with
  | none => exact Int.max_self _
  | some v => rfl

theorem push {now : Instant} (inserted : Inserted now s v t) : Logged (log ++ [v]) t := by
  have pushed := logged.numbered.push (next?_eq_some_iff.mpr ⟨inserted.free, rfl⟩)
  have word := inserted.word logged.numbered.start
  have signed : v.row.sequence = s.lastVersion + 1 := by
    have := pushed.fits
    rw [row_sequence (by omega), word]
  refine ⟨by rw [inserted.grown, logged.rows, List.map_append]; rfl, ?_, ?_, ?_⟩
  · rw [inserted.grown, List.map_append, inserted.last, List.map_cons, signed]
    exact pushed
  · intro u member
    rcases List.mem_append.mp member with old | new
    · exact logged.words u old
    · rw [List.mem_singleton.mp new, word]
      exact pushed.fits
  · refine List.pairwise_append.mpr ⟨logged.later, List.pairwise_singleton .., ?_⟩
    intro u old w new names
    rw [List.mem_singleton.mp new] at names ⊢
    exact inserted.later u.row (logged.row_mem old) (congrArg RecordId.text names)

theorem of_history_eq (same : t.versions = s.versions) (last : t.lastVersion = s.lastVersion) :
    Logged log t :=
  ⟨same.trans logged.rows, by rw [same, last]; exact logged.numbered, logged.words, logged.later⟩

end Logged

theorem insertVersion_inserted {now : Instant} {payload : String} (start : 0 ≤ s.lastVersion)
    (made : s.insertVersion now id tag payload = (.ok v, t)) :
    Inserted now s v t ∧ v.id = id ∧ v.tag = tag ∧ v.payload = payload := by
  obtain ⟨n, at_, next, stamped, _, rfl, rfl⟩ := insertVersion_ok made
  obtain ⟨free, rfl⟩ := next?_eq_some_iff.mp next
  refine ⟨⟨free, rfl, stamped, ?_, rfl⟩, rfl, rfl, rfl⟩
  change s.versions ++ [s.newRow now id tag payload _] = _
  simp only [newRow, Version.row, stamped,
    Word.signed_unsigned (n := s.lastVersion + 1)
      (by simp only [Word.minSigned]; omega) (by omega)]

theorem upsertIndex_history (id : RecordId) (tag : Tag) (s : Store) :
    (s.upsertIndex id tag).2.versions = s.versions ∧
      (s.upsertIndex id tag).2.lastVersion = s.lastVersion := by
  unfold upsertIndex
  split
  · exact ⟨rfl, rfl⟩
  · split <;> exact ⟨rfl, rfl⟩

/-- Apart from statements only insertions touch the history. -/
theorem answer_history (now : Instant) (c : Call) (other : c.method ≠ .insertVersion)
    (unstated : c.method ≠ .query) (s : Store) :
    (answer now c s).2.versions = s.versions ∧
      (answer now c s).2.lastVersion = s.lastVersion := by
  cases c with
  | insertVersion => exact absurd rfl other
  | query => exact absurd rfl unstated
  | upsertIndex id tag => exact upsertIndex_history id tag s
  | indexIfLive id tag =>
    simp only [answer, indexIfLive]
    split
    · exact upsertIndex_history id tag s
    · exact ⟨rfl, rfl⟩
  | unindexIfDead id =>
    simp only [answer, unindexIfDead]
    split <;> exact ⟨rfl, rfl⟩
  | _ => exact ⟨rfl, rfl⟩

end Store
end RecordLedger
