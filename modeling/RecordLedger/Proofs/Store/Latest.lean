import RecordLedger.Proofs.Store.Sound

/-! The latest version of an id, said of the rows alone, and what the store's own ways of finding
it have to do with that. -/
namespace RecordLedger.Store

/-- Greater timestamps are later, and of equal ones greater sequence numbers. -/
def NotLater (a b : VersionRow) : Prop :=
  a.timestamp < b.timestamp ∨ a.timestamp = b.timestamp ∧ a.sequence ≤ b.sequence

structure Latest (s : Store) (id : String) (r : VersionRow) : Prop where
  stored : r ∈ s.versions
  names : r.id = id
  last : ∀ other ∈ s.versions, other.id = id → NotLater other r

def Live (s : Store) (id : String) : Prop := ∃ r, Latest s id r ∧ r.payload ≠ tombstone

variable {s : Store} {id : String} {r a b : VersionRow}

theorem newestFirst_iff (a b : VersionRow) : newestFirst a b = true ↔ NotLater b a := by
  simp only [newestFirst, NotLater, Bool.or_eq_true, Bool.and_eq_true, decide_eq_true_eq,
    beq_iff_eq]
  omega

theorem newestFirst_total (a b : VersionRow) :
    newestFirst a b = true ∨ newestFirst b a = true := by
  simp only [newestFirst_iff, NotLater]; omega

theorem newestFirst_trans (a b c : VersionRow) (first : newestFirst a b = true)
    (second : newestFirst b c = true) : newestFirst a c = true := by
  simp only [newestFirst_iff, NotLater] at *; omega

theorem mem_rowsOf : r ∈ s.rowsOf id ↔ r ∈ s.versions ∧ r.id = id := by
  simp [rowsOf]

theorem rowsOf_sorted (s : Store) (id : String) :
    (s.rowsOf id).Pairwise fun a b => NotLater b a := by
  have sorted := Sort.sort_sorted newestFirst_total newestFirst_trans
    (s.versions.filter (·.id == id))
  exact sorted.imp fun h => (newestFirst_iff _ _).mp h

theorem NotLater.refl (r : VersionRow) : NotLater r r := .inr ⟨rfl, Int.le_refl _⟩

theorem latest?_latest (found : s.latest? id = some r) : Latest s id r := by
  obtain ⟨rest, shape⟩ := List.head?_eq_some_iff.mp found
  have member : r ∈ s.rowsOf id := by rw [shape]; exact List.mem_cons_self
  refine ⟨(mem_rowsOf.mp member).1, (mem_rowsOf.mp member).2, ?_⟩
  intro other stored names
  have among : other ∈ s.rowsOf id := mem_rowsOf.mpr ⟨stored, names⟩
  have sorted := rowsOf_sorted s id
  rw [shape] at among sorted
  rcases List.mem_cons.mp among with rfl | among
  · exact .refl _
  · exact (List.pairwise_cons.mp sorted).1 other among

theorem latest?_eq_none_iff : s.latest? id = none ↔ ∀ r ∈ s.versions, r.id ≠ id := by
  rw [latest?, List.head?_eq_none_iff, List.eq_nil_iff_forall_not_mem]
  simp only [mem_rowsOf, not_and, ne_eq]

theorem Latest.unique (valid : Keyed s) (ha : Latest s id a) (hb : Latest s id b) : a = b := by
  have forth := hb.last a ha.stored ha.names
  have back := ha.last b hb.stored hb.names
  apply valid.version_unique ha.stored hb.stored
  simp only [NotLater] at forth back
  omega

/-- Each id has one latest version at most. -/
theorem apart_of_latest (valid : Keyed s) {rows : List VersionRow} (part : rows.Sublist s.versions)
    (latest : ∀ r ∈ rows, Latest s r.id r) : rows.Pairwise fun a b => a.id ≠ b.id := by
  refine (valid.versions.sublist part).imp_of_mem fun {a b} memberA memberB other same => ?_
  have equal := (latest a memberA).unique valid (same ▸ latest b memberB)
  exact other (equal ▸ rfl)

theorem latest?_eq_some_iff (valid : Keyed s) : s.latest? id = some r ↔ Latest s id r := by
  refine ⟨latest?_latest, fun latest => ?_⟩
  cases found : s.latest? id with
  | none => exact absurd latest.names (latest?_eq_none_iff.mp found r latest.stored)
  | some other => rw [(latest?_latest found).unique valid latest]

theorem isLatest_iff (valid : Keyed s) (stored : r ∈ s.versions) :
    s.isLatest r = true ↔ Latest s r.id r := by
  simp only [isLatest, beq_iff_eq, Option.map_eq_some_iff]
  constructor
  · rintro ⟨other, found, same⟩
    have latest := latest?_latest found
    rwa [valid.version_unique latest.stored stored same] at latest
  · intro latest
    exact ⟨r, (latest?_eq_some_iff valid).mpr latest, rfl⟩

theorem isTombstone_iff (payload : String) : isTombstone payload = true ↔ payload = tombstone := by
  simp [isTombstone]

theorem isTombstone_eq_false_iff (payload : String) :
    isTombstone payload = false ↔ payload ≠ tombstone := by
  simp [isTombstone]

def isDead (s : Store) (id : String) : Bool := (s.latest? id).all (isTombstone ·.payload)

theorem isDead_eq_false_iff (valid : Keyed s) : s.isDead id = false ↔ Live s id := by
  unfold isDead
  cases found : s.latest? id with
  | none =>
    simp only [Option.all_none, Bool.true_eq_false, false_iff]
    rintro ⟨r, latest, _⟩
    exact latest?_eq_none_iff.mp found r latest.stored latest.names
  | some r =>
    rw [Option.all_some, isTombstone_eq_false_iff]
    constructor
    · exact fun live => ⟨r, latest?_latest found, live⟩
    · rintro ⟨other, latest, live⟩
      rwa [(latest?_latest found).unique valid latest]

/-- The search for stale rows asks for a version apart from the latest one. -/
theorem staleIndexRows_eq (s : Store) :
    s.staleIndexRows = (Sort.sort (fun a b => decide (a.sequence ≤ b.sequence))
      (s.index.filter fun r => s.isDead r.id)).mapM IndexRow.decode := by
  have same : (s.index.filter fun i => !(s.versions.any (·.id == i.id)) ||
      (s.latest? i.id).any (isTombstone ·.payload)) = s.index.filter fun r => s.isDead r.id := by
    refine List.filter_congr fun i _ => ?_
    cases found : s.latest? i.id with
    | none =>
      have unknown : s.versions.any (·.id == i.id) = false := by
        simpa using latest?_eq_none_iff.mp found
      simp [isDead, found, unknown]
    | some r =>
      have latest := latest?_latest found
      have known : s.versions.any (·.id == i.id) = true :=
        List.any_eq_true.mpr ⟨r, latest.stored, by simp [latest.names]⟩
      simp [isDead, found, known]
  rw [staleIndexRows, same]

/-- The removal of a stale row takes a deletion for the latest payload where there is none. -/
theorem unindexIfDead_eq (i : RecordId) (s : Store) :
    s.unindexIfDead i = if s.isDead i.text then s.removeIndex i else (.ok false, s) := by
  have same : isTombstone (((s.latest? i.text).map (·.payload)).getD tombstone) =
      s.isDead i.text := by
    cases found : s.latest? i.text <;> simp [isDead, found, isTombstone]
  rw [unindexIfDead, same]

/-- Picking versions under a tag before they are sorted is picking the first one under the tag. -/
theorem latestVersion_eq_find (s : Store) (i : RecordId) (tag : Tag) :
    s.latestVersion i tag = readVersion? ((s.rowsOf i.text).find? (·.tag == tag.text)) := by
  have picked : (s.versions.filter fun r => r.id == i.text && r.tag == tag.text) =
      (s.versions.filter (·.id == i.text)).filter (·.tag == tag.text) := by
    rw [List.filter_filter]
    exact List.filter_congr fun r _ => Bool.and_comm _ _
  rw [latestVersion, picked, Sort.sort_filter newestFirst_total newestFirst_trans,
    List.head?_filter]
  rfl

/-- Among versions of one timestamp the last one is the newest. -/
theorem versionAt_eq_find (s : Store) (i : RecordId) (tag : Tag) (at_ : Instant) :
    s.versionAt i tag at_ = readVersion? ((s.rowsOf i.text).find? fun r =>
      r.tag == tag.text && r.timestamp == at_.micros) := by
  have picked : (s.versions.filter fun r =>
      r.id == i.text && r.tag == tag.text && r.timestamp == at_.micros) =
      (s.versions.filter (·.id == i.text)).filter fun r =>
        r.tag == tag.text && r.timestamp == at_.micros := by
    rw [List.filter_filter]
    refine List.filter_congr fun r _ => ?_
    cases r.id == i.text <;> simp
  have tied : ∀ a ∈ (s.versions.filter (·.id == i.text)).filter (fun r =>
      r.tag == tag.text && r.timestamp == at_.micros),
      ∀ b ∈ (s.versions.filter (·.id == i.text)).filter (fun r =>
        r.tag == tag.text && r.timestamp == at_.micros), lastFirst a b = newestFirst a b := by
    intro a first b second
    simp only [List.mem_filter, Bool.and_eq_true, beq_iff_eq] at first second
    simp [lastFirst, newestFirst, first.2.2, second.2.2]
  rw [versionAt, picked, Sort.sort_congr _ tied,
    Sort.sort_filter newestFirst_total newestFirst_trans, List.head?_filter]
  rfl

theorem mem_timestampsOf {n : Int} :
    n ∈ s.timestampsOf id ↔ ∃ r ∈ s.versions, r.id = id ∧ r.timestamp = n := by
  simp [timestampsOf, and_assoc]

/-- The greatest timestamp is that of the latest version. -/
theorem max?_timestampsOf (s : Store) (id : String) :
    (s.timestampsOf id).max? = (s.latest? id).map (·.timestamp) := by
  cases found : s.latest? id with
  | none =>
    have unknown := latest?_eq_none_iff.mp found
    rw [Option.map_none, List.max?_eq_none_iff, List.eq_nil_iff_forall_not_mem]
    intro n member
    obtain ⟨r, stored, names, _⟩ := mem_timestampsOf.mp member
    exact unknown r stored names
  | some r =>
    have latest := latest?_latest found
    rw [Option.map_some, List.max?_eq_some_iff]
    refine ⟨mem_timestampsOf.mpr ⟨r, latest.stored, latest.names, rfl⟩, fun n member => ?_⟩
    obtain ⟨other, stored, names, rfl⟩ := mem_timestampsOf.mp member
    have last := latest.last other stored names
    simp only [NotLater] at last
    omega

theorem earliestNext?_eq (s : Store) (id : String) :
    s.earliestNext? id = (s.latest? id).map fun r => min (r.timestamp + 1) pastLastTimestamp := by
  rw [earliestNext?, max?_timestampsOf, Option.map_map]
  rfl

/-- The least timestamp is that of the row behind all others. -/
theorem earliestTimestamp_eq_last (s : Store) (i : RecordId) :
    s.earliestTimestamp i =
      match (s.rowsOf i.text).getLast? with
      | none => .ok none
      | some r => (readTimestamp r.timestamp).map some := by
  have least : (s.timestampsOf i.text).min? =
      (s.rowsOf i.text).getLast?.map (·.timestamp) := by
    cases found : (s.rowsOf i.text).getLast? with
    | none =>
      have nothing : s.rowsOf i.text = [] := List.getLast?_eq_none_iff.mp found
      rw [Option.map_none, List.min?_eq_none_iff, List.eq_nil_iff_forall_not_mem]
      intro n member
      obtain ⟨r, stored, names, _⟩ := mem_timestampsOf.mp member
      have among : r ∈ s.rowsOf i.text := mem_rowsOf.mpr ⟨stored, names⟩
      rw [nothing] at among
      cases among
    | some r =>
      obtain ⟨front, shape⟩ := List.getLast?_eq_some_iff.mp found
      have sorted := rowsOf_sorted s i.text
      rw [shape] at sorted
      have stored : r ∈ s.rowsOf i.text := by rw [shape]; simp
      obtain ⟨stored, names⟩ := mem_rowsOf.mp stored
      rw [Option.map_some, List.min?_eq_some_iff]
      refine ⟨mem_timestampsOf.mpr ⟨r, stored, names, rfl⟩, fun n member => ?_⟩
      obtain ⟨other, held, own, rfl⟩ := mem_timestampsOf.mp member
      have among : other ∈ s.rowsOf i.text := mem_rowsOf.mpr ⟨held, own⟩
      rw [shape] at among
      rcases List.mem_append.mp among with before | last
      · have later := (List.pairwise_append.mp sorted).2.2 other before r List.mem_cons_self
        simp only [NotLater] at later
        omega
      · obtain rfl := List.mem_singleton.mp last
        exact Int.le_refl _
  rw [earliestTimestamp, least]
  cases (s.rowsOf i.text).getLast? <;> rfl

end RecordLedger.Store
