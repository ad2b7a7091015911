import RecordLedger.Proofs.Store.Drift
import RecordLedger.Proofs.Store.Log

/-! All statements of a store that speak of latest versions speak of the same ones, on any content
of the two relations: timestamps may tie and may contradict the order of the numbers. -/
namespace RecordLedger.Store

/-- Any content of the two relations whose texts spell ids and tags: the order of the rows, the
timestamps and the payloads are left open, and so is whether the index fits the history. -/
structure Proper (s : Store) : Prop where
  keyed : Keyed s
  words : ∀ r ∈ s.versions, Word.minSigned ≤ r.sequence ∧ r.sequence ≤ Word.maxSigned
  dated : ∀ r ∈ s.versions, Word.fitsSigned r.timestamp = true
  versionTexts : ∀ r ∈ s.versions, Spelled r.id r.tag
  indexTexts : ∀ r ∈ s.index, Spelled r.id r.tag

def Dead (s : Store) (id : String) : Prop :=
  (∀ r ∈ s.versions, r.id ≠ id) ∨ ∃ r, Latest s id r ∧ r.payload = tombstone

structure Ranked (s : Store) (id : RecordId) (vs : List Version) : Prop where
  all : (vs.map Version.row).Perm (s.versions.filter (·.id == id.text))
  ordered : (vs.map Version.row).Pairwise fun a b => NotLater b a
  first : ∀ r, (vs.map Version.row).head? = some r ↔ Latest s id.text r

structure Collected (s : Store) (ids : List RecordId) (vs : List Version) : Prop where
  latest : ∀ r, r ∈ vs.map Version.row ↔ ∃ id ∈ ids, Latest s id.text r
  once : vs.Pairwise fun u v => u.id ≠ v.id

/-- `found` are the live ids without an index row, and indexing goes by them while there are
numbers. -/
structure Unindexed (s : Store) (found : List (RecordId × Tag)) : Prop where
  listed : ∀ id tag, (id, tag) ∈ found ↔ Lacks s id tag
  once : found.Pairwise fun a b => a.1 ≠ b.1
  enters : s.lastIndex < Word.maxSigned → ∀ id tag, ∃ t,
    s.indexIfLive id tag = (.ok (decide ((id, tag) ∈ found)), t) ∧
      Adds s id tag (decide ((id, tag) ∈ found)) t
  full : Word.maxSigned ≤ s.lastIndex → ∀ id tag, (s.indexIfLive id tag).2 = s

/-- `found` are the index rows of dead ids, and removal goes by them. -/
structure Stale (s : Store) (found : List IndexEntry) : Prop where
  listed : ∀ entry, entry ∈ found ↔ ∃ row ∈ s.index, row.decode = .ok entry ∧ Dead s row.id
  once : found.Pairwise fun a b => a.id ≠ b.id
  leaves : ∀ id, ∃ t, s.unindexIfDead id = (.ok (decide (∃ entry ∈ found, entry.id = id)), t) ∧
    Removes s id (decide (∃ entry ∈ found, entry.id = id)) t

structure Accord (s : Store) : Prop where
  versions : ∀ id, ∃ vs, s.versionsOf id = .ok vs ∧ Ranked s id vs ∧
    ∀ tag, s.latestVersion id tag = .ok (vs.find? (·.tag = tag))
  together : ∀ ids, ids.length ≤ maxParameters →
    ∃ vs, s.latestVersionsIn ids = .ok vs ∧ Collected s ids vs
  crowded : ∀ ids, maxParameters < ids.length → s.latestVersionsIn ids = .error .statement
  missing : ∃ found, s.unindexedLive = .ok found ∧ Unindexed s found
  stale : ∃ found, s.staleIndexRows = .ok found ∧ Stale s found

variable {s t : Store} {id : RecordId} {tag : Tag}

theorem dead_iff {id : String} (keyed : Keyed s) : Dead s id ↔ ¬ Live s id := by
  constructor
  · rintro (unknown | ⟨r, latest, deleted⟩) ⟨other, last, live⟩
    · exact unknown other last.stored last.names
    · exact live (last.unique keyed latest ▸ deleted)
  · intro gone
    cases found : s.latest? id with
    | none => exact .inl (latest?_eq_none_iff.mp found)
    | some r =>
      have latest := latest?_latest found
      exact .inr ⟨r, latest, by_contra fun live => gone ⟨r, latest, live⟩⟩

theorem ranked_of_lists {vs : List Version} (keyed : Keyed s) (lists : Lists s id vs) :
    Ranked s id vs where
  all := lists.rows ▸ Sort.sort_perm _ _
  ordered := lists.rows ▸ rowsOf_sorted s id.text
  first r := by
    rw [← lists.rows]
    exact latest?_eq_some_iff keyed

theorem mem_of_map_eq {f : α → γ} {g : β → γ} {xs : List α} {ys : List β} {x : α}
    (injective : f.Injective) (same : xs.map f = ys.map g) :
    x ∈ xs ↔ ∃ y ∈ ys, g y = f x := by
  rw [← List.mem_map_of_injective injective, same, List.mem_map]

theorem pairwise_of_map_eq {f : α → γ} {g : β → γ} {xs : List α} {ys : List β}
    {P : γ → γ → Prop} (same : xs.map f = ys.map g) (apart : ys.Pairwise fun a b => P (g a) (g b)) :
    xs.Pairwise fun a b => P (f a) (f b) := by
  rw [← List.pairwise_map, same]
  exact List.pairwise_map.mpr apart

theorem texts_injective :
    Function.Injective fun e : RecordId × Tag => (e.1.text, e.2.text) := by
  rintro ⟨id, tag⟩ ⟨id', tag'⟩ same
  obtain ⟨ids, tags⟩ := Prod.mk.inj same
  rw [(RecordId.text_inj id id').mp ids, (Tag.text_inj tag tag').mp tags]

namespace Proper

variable (proper : Proper s)
include proper

theorem lists (id : RecordId) : ∃ vs, Lists s id vs := by
  have stored : ∀ r ∈ s.rowsOf id.text, r ∈ s.versions := fun r member => (mem_rowsOf.mp member).1
  obtain ⟨vs, read, rows⟩ := readVersions_ok (s.rowsOf id.text)
    (fun r member => proper.words r (stored r member))
    (fun r member => proper.dated r (stored r member))
    (fun r member => proper.versionTexts r (stored r member))
  exact ⟨vs, rows.symm, readVersions_words read⟩

theorem collected (ids : List RecordId) (few : ids.length ≤ maxParameters) :
    ∃ vs, s.latestVersionsIn ids = .ok vs ∧ Collected s ids vs := by
  have latest : ∀ r ∈ s.askedRows ids, Latest s r.id r := by
    intro r member
    obtain ⟨id, _, latest⟩ := (mem_askedRows proper.keyed).mp member
    exact latest.names ▸ latest
  obtain ⟨vs, read, rows⟩ := readVersions_ok (s.askedRows ids)
    (fun r member => proper.words r (latest r member).stored)
    (fun r member => proper.dated r (latest r member).stored)
    (fun r member => proper.versionTexts r (latest r member).stored)
  have apart : (s.askedRows ids).Pairwise fun a b => a.id ≠ b.id := by
    refine ((askedRows_perm s ids).pairwise_iff fun other => other.symm).mpr ?_
    refine apart_of_latest proper.keyed List.filter_sublist fun r member => latest r ?_
    exact (askedRows_perm s ids).mem_iff.mpr member
  refine ⟨vs, (latestVersionsIn_few few).trans read, fun r => ?_, ?_⟩
  · rw [rows, mem_askedRows proper.keyed]
  · refine (List.pairwise_map.mp (rows ▸ apart)).imp fun other same => ?_
    exact other (congrArg RecordId.text same)

theorem missing : ∃ found, s.unindexedLive = .ok found ∧ Unindexed s found := by
  obtain ⟨found, read, texts⟩ := unindexedLive_read proper.versionTexts
  have listed : ∀ id tag, (id, tag) ∈ found ↔ Lacks s id tag := by
    intro id tag
    rw [mem_of_map_eq texts_injective texts]
    simp only [Sort.mem_sort, mem_missingRows proper.keyed, Prod.mk.injEq]
    constructor
    · rintro ⟨r, ⟨latest, live, absent⟩, names, tagged⟩
      exact ⟨names ▸ absent, r, names ▸ latest, tagged, live⟩
    · rintro ⟨absent, r, latest, tagged, live⟩
      have names := latest.names
      exact ⟨r, ⟨names.symm ▸ latest, live, names.symm ▸ absent⟩, names, tagged⟩
  have apart : (missingRows s).Pairwise fun a b => a.id ≠ b.id :=
    apart_of_latest proper.keyed List.filter_sublist fun _ member =>
      ((mem_missingRows proper.keyed).mp member).1
  refine ⟨found, read, listed, ?_, fun room id tag => ?_, fun full id tag => ?_⟩
  · have once := pairwise_of_map_eq (P := fun a b => a.1 ≠ b.1) texts
      (((Sort.sort_perm _ _).pairwise_iff fun other => other.symm).mpr apart)
    exact once.imp fun other same => other (congrArg RecordId.text same)
  · rcases indexIfLive_cases proper.keyed (Prod.eta (s.indexIfLive id tag)).symm with
      ⟨changed, ok, adds⟩ | ⟨_, _, used⟩
    · have due : changed = decide ((id, tag) ∈ found) := by
        rw [Bool.eq_iff_iff, decide_eq_true_iff, listed]
        exact adds.due
      exact ⟨_, Prod.ext (due ▸ ok) rfl, due ▸ adds⟩
    · have free := next?_eq_some_iff.mpr ⟨room, rfl⟩
      rw [used] at free
      cases free
  · exact indexIfLive_full (if_neg (Int.not_lt.mpr full))

theorem stale : ∃ found, s.staleIndexRows = .ok found ∧ Stale s found := by
  obtain ⟨found, read, texts⟩ := staleIndexRows_read proper.indexTexts
  have names : found.map (·.id.text) =
      (Sort.sort (fun a b => decide (a.sequence ≤ b.sequence)) (staleRows s)).map (·.id) := by
    have firsts := congrArg (List.map Prod.fst) texts
    rw [List.map_map, List.map_map] at firsts
    exact firsts
  have lingering : ∀ id, (∃ entry ∈ found, entry.id = id) ↔ Lingers s id := by
    intro id
    have among : (∃ entry ∈ found, entry.id = id) ↔ id.text ∈ found.map (·.id.text) := by
      simp only [List.mem_map, RecordId.text_inj]
    rw [among, names]
    simp only [List.mem_map, Sort.mem_sort, mem_staleRows proper.keyed, Lingers, isIndexed_iff]
    constructor
    · rintro ⟨row, ⟨stored, gone⟩, same⟩
      exact ⟨⟨row, stored, same⟩, same ▸ gone⟩
    · rintro ⟨⟨row, stored, same⟩, gone⟩
      exact ⟨row, ⟨stored, same.symm ▸ gone⟩, same⟩
  refine ⟨found, read, fun entry => ?_, ?_, fun id => ?_⟩
  · rw [staleIndexRows_eq] at read
    obtain ⟨all, met, forth, back⟩ | ⟨_, _, _, _, failed⟩ := mapM_cases IndexRow.decode
      (Sort.sort (fun a b => decide (a.sequence ≤ b.sequence)) (staleRows s))
    · obtain rfl : all = found := Except.ok.inj (met.symm.trans read)
      simp only [Sort.mem_sort, mem_staleRows proper.keyed, ← dead_iff proper.keyed] at forth back
      constructor
      · intro member
        obtain ⟨row, ⟨stored, dead⟩, decoded⟩ := back entry member
        exact ⟨row, stored, decoded, dead⟩
      · rintro ⟨row, stored, decoded, dead⟩
        obtain ⟨other, member, same⟩ := forth row ⟨stored, dead⟩
        exact Except.ok.inj (same.symm.trans decoded) ▸ member
    · cases failed.symm.trans read
  · have apart := ((Sort.sort_perm (fun a b => decide (a.sequence ≤ b.sequence))
      (staleRows s)).pairwise_iff fun other => other.symm).mpr (proper.keyed.single.filter _)
    exact (pairwise_of_map_eq (P := (· ≠ ·)) names apart).imp fun other same =>
      other (congrArg RecordId.text same)
  · obtain ⟨changed, t, met, removes⟩ := unindexIfDead_removes proper.keyed id
    have due : changed = decide (∃ entry ∈ found, entry.id = id) := by
      rw [Bool.eq_iff_iff, decide_eq_true_iff, lingering]
      exact removes.due
    exact ⟨t, due ▸ met, due ▸ removes⟩

end Proper

/-- Where the numbers of the index are used up nothing can be indexed, and a list of ids is refused
that needs more parameters than a statement may have. -/
theorem statements_agree (proper : Proper s) : Accord s where
  versions id := by
    obtain ⟨vs, lists⟩ := proper.lists id
    exact ⟨vs, lists.versionsOf_eq, ranked_of_lists proper.keyed lists, lists.latestVersion_eq⟩
  together := proper.collected
  crowded _ many := if_pos many
  missing := proper.missing
  stale := proper.stale

/-- Two timestamps tie and the numbers contradict the others: one record is live without an index
row, one is deleted with one, and one has only an index row. -/
def contrary (tag other : Tag) (id : UInt8 → RecordId) : Store :=
  ⟨[⟨8, (id 2).text, tag.text, "3", 0⟩, ⟨5, (id 1).text, tag.text, "1", 9⟩,
      ⟨-3, (id 1).text, other.text, "2", 9⟩, ⟨6, (id 1).text, other.text, tombstone, 4⟩,
      ⟨7, (id 2).text, tag.text, tombstone, 1⟩],
    [⟨2, (id 2).text, tag.text⟩, ⟨1, (id 3).text, other.text⟩], 8, 2⟩

theorem contrary_proper {tag other : Tag} {id : UInt8 → RecordId}
    (apart : (id 2).text ≠ (id 3).text) : Proper (contrary tag other id) where
  keyed := ⟨by simp [contrary], by simp [contrary, apart]⟩
  words := by simp [contrary, Word.minSigned, Word.maxSigned]
  dated := by simp [contrary, Word.fitsSigned, Word.minSigned, Word.maxSigned]
  versionTexts := by simp [contrary, Spelled]
  indexTexts := by simp [contrary, Spelled]

theorem contrary_agrees :
    let tag : Tag := ⟨"app.note", by decide⟩
    let other : Tag := ⟨"app.memo", by decide⟩
    let id (octet : UInt8) : RecordId := ⟨List.replicate 16 octet, List.length_replicate⟩
    let s := contrary tag other id
    Proper s ∧ Accord s ∧ s.unindexedLive = .ok [(id 1, tag)] ∧
      s.staleIndexRows = .ok [⟨1, id 3, other⟩, ⟨2, id 2, tag⟩] := by
  intro tag other id s
  have proper : Proper s := contrary_proper (by decide +kernel)
  exact ⟨proper, statements_agree proper, by decide +kernel, by decide +kernel⟩

def brimming (tag : Tag) (id other : RecordId) : Store :=
  ⟨[⟨1, id.text, tag.text, "1", 0⟩], [⟨9223372036854775807, other.text, tag.text⟩], 1,
    9223372036854775807⟩

/-- The record is listed and yet not indexed, and it is known and yet not among the latest versions
of a list that names it too often. -/
theorem brimming_refused :
    let tag : Tag := ⟨"app.note", by decide⟩
    let id (octet : UInt8) : RecordId := ⟨List.replicate 16 octet, List.length_replicate⟩
    let s := brimming tag (id 1) (id 2)
    Proper s ∧ s.unindexedLive = .ok [(id 1, tag)] ∧
      s.indexIfLive (id 1) tag = (.error .statement, s) ∧
      s.versionsOf (id 1) = .ok [⟨1, id 1, tag, "1", .epoch⟩] ∧
      s.latestVersionsIn (List.replicate 32767 (id 1)) = .error .statement := by
  intro tag id s
  have proper : Proper s :=
    { keyed := ⟨by simp [s, brimming], by simp [s, brimming]⟩
      words := by simp [s, brimming, Word.minSigned, Word.maxSigned]
      dated := by simp [s, brimming, Word.fitsSigned, Word.minSigned, Word.maxSigned]
      versionTexts := by simp [s, brimming, Spelled]
      indexTexts := by simp [s, brimming, Spelled] }
  refine ⟨proper, by decide +kernel, by decide +kernel, by decide +kernel, ?_⟩
  exact if_pos (by rw [List.length_replicate]; decide)

end RecordLedger.Store
