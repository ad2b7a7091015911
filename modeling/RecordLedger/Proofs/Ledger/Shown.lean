import RecordLedger.Proofs.Ledger.Backing
import RecordLedger.Proofs.Ledger.Complete

/-! What pages show of a log: each record on a page is an entry of the log, and the latest of its
id. -/
namespace RecordLedger

open Store (Latest Sound Backed Logged)

namespace Store

variable {s : Store} {log : List Version} {id : RecordId} {v : Version}

theorem Logged.row_injective (logged : Logged log s) {u : Version} (memberU : u ∈ log)
    (memberV : v ∈ log) (same : u.row = v.row) : u = v := by
  have decodedU := decode_row (logged.unsigned memberU)
  have decodedV := decode_row (logged.unsigned memberV)
  have times : u.timestamp = v.timestamp :=
    Instant.micros_injective _ _ (congrArg VersionRow.timestamp same)
  rw [same, times] at decodedU
  exact Except.ok.inj (decodedU.symm.trans decodedV)

/-- The latest version of an id is the last entry of the log. -/
theorem Logged.latest_iff (logged : Logged log s) (sound : Sound s) (member : v ∈ log) :
    Latest s id.text v.row ↔ (entries log id).getLast? = some v := by
  rw [← latest?_eq_some_iff sound.keyed, logged.latest?_eq, Option.map_eq_some_iff]
  constructor
  · rintro ⟨u, last, same⟩
    have stored := (mem_entries.mp (List.mem_of_getLast? last)).1
    rwa [logged.row_injective member stored same.symm]
  · exact fun last => ⟨v, last, rfl⟩

theorem Logged.liveUnder_iff (logged : Logged log s) (sound : Sound s) (tag : Tag) :
    Ledger.LiveUnder tag s id ↔
      ∃ v, (entries log id).getLast? = some v ∧ v.payload ≠ tombstone ∧ v.tag = tag := by
  constructor
  · rintro ⟨r, latest, live, tagged⟩
    obtain ⟨v, member, rfl⟩ := logged.mem_versions.mp latest.stored
    exact ⟨v, (logged.latest_iff sound member).mp latest, live, (Tag.text_inj _ _).mp tagged⟩
  · rintro ⟨v, last, live, rfl⟩
    have member := (mem_entries.mp (List.mem_of_getLast? last)).1
    exact ⟨v.row, (logged.latest_iff sound member).mpr last, live, rfl⟩

theorem exists_map_eq {f : α → β} {xs : List α} {ys : List β}
    (each : ∀ y ∈ ys, ∃ x ∈ xs, f x = y) : ∃ zs : List α, zs.map f = ys ∧ ∀ z ∈ zs, z ∈ xs := by
  induction ys with
  | nil => exact ⟨[], rfl, nofun⟩
  | cons y ys ih =>
    obtain ⟨x, member, rfl⟩ := each y List.mem_cons_self
    obtain ⟨zs, rfl, among⟩ := ih fun z listed => each z (List.mem_cons_of_mem _ listed)
    exact ⟨x :: zs, rfl, List.forall_mem_cons.mpr ⟨member, among⟩⟩

/-- What is read from rows of the history is what was appended. -/
theorem Logged.latestVersionsIn_mem (logged : Logged log s) {ids : List RecordId}
    {vs : List Version} (read : s.latestVersionsIn ids = .ok vs) : ∀ v ∈ vs, v ∈ log := by
  unfold latestVersionsIn at read
  split at read
  · cases read
  · dsimp only at read
    generalize listed : Sort.sort (fun a b : VersionRow => decide (a.id ≤ b.id)) _ = rows at read
    have each : ∀ r ∈ rows, ∃ v ∈ log, v.row = r := by
      intro r member
      rw [← listed, Sort.mem_sort, Sort.mem_sort] at member
      exact logged.mem_versions.mp (List.mem_filter.mp member).1
    obtain ⟨ws, rfl, among⟩ := exists_map_eq each
    rw [readVersions_rows fun w member => logged.unsigned (among w member)] at read
    exact Except.ok.inj read ▸ among

end Store

namespace Ledger

variable {s t : Store} {log : List Version} {tag : Tag} {now : Instant} {k : Nat}
  {before : Option RecordId} {page : ResultSet}

theorem latestInOrder_mem (logged : Logged log s) {ids : List RecordId} {vs : List Version}
    (met : (latestInOrder (Store.answer now) ids).outcome s = (.ok vs, t)) : ∀ v ∈ vs, v ∈ log := by
  rw [latestInOrder] at met
  rcases Action.call_bind_cases met with ⟨e, _, failed⟩ | ⟨found, u, answered, rest⟩
  · cases failed
  · cases rest
    have read : s.latestVersionsIn ids = .ok found := congrArg Prod.fst answered
    intro v member
    rw [arranged, List.mem_filterMap] at member
    obtain ⟨id, _, search⟩ := member
    exact logged.latestVersionsIn_mem read v
      (List.mem_reverse.mp (List.mem_of_find?_eq_some search))

theorem pageLimit_state {newest limit : Nat}
    (met : (pageLimit (Store.answer now) tag before newest).outcome s = (.ok limit, t)) :
    s = t := by
  cases before with
  | none =>
    cases met
    rfl
  | some id =>
    rcases Action.call_bind_cases met with ⟨_, _, failed⟩ | ⟨found, u, answered, rest⟩
    · cases failed
    · obtain rfl : s = u := congrArg Prod.snd answered
      cases found <;> cases rest
      rfl

theorem fetch_unlisted (now : Instant) (tag : Tag) (positive : 0 < k) (gone : s.index = []) :
    (fetch (Store.answer now) tag k none).outcome s = (.ok ⟨[], .empty, none⟩, s) := by
  obtain ⟨versions, index, lastVersion, lastIndex⟩ := s
  subst gone
  rw [fetch_eq _ tag k none positive]
  rfl

/-- A page shows versions of the log. -/
theorem fetch_mem (logged : Logged log s)
    (met : (fetch (Store.answer now) tag k before).outcome s = (.ok page, t)) :
    ∀ v ∈ page.remaining, v ∈ log := by
  rcases Nat.eq_zero_or_pos k with rfl | positive
  · cases met
  rw [fetch_eq _ tag k before positive] at met
  rcases Action.call_bind_cases met with ⟨_, _, failed⟩ | ⟨total, u, counted, met⟩
  · cases failed
  cases counted
  rcases Action.call_bind_cases met with ⟨_, _, failed⟩ | ⟨newest, u, found, met⟩
  · cases failed
  cases found
  cases top : s.indexMaxSequence tag with
  | none =>
    rw [top] at met
    cases met
    exact fun v member => absurd member List.not_mem_nil
  | some newest =>
    rw [top] at met
    rcases Action.bind_cases met with ⟨_, _, failed⟩ | ⟨limit, u, limited, met⟩
    · cases failed
    obtain rfl : s = u := pageLimit_state limited
    rcases Action.call_bind_cases met with ⟨_, _, failed⟩ | ⟨window, u, seen, met⟩
    · cases failed
    cases seen
    rcases Action.call_bind_cases met with ⟨_, _, failed⟩ | ⟨ids, u, chosen, met⟩
    · cases failed
    obtain rfl : s = u := congrArg Prod.snd chosen
    rcases Action.bind_cases met with ⟨_, _, failed⟩ | ⟨vs, u, read, met⟩
    · cases failed
    cases met
    exact fun v member => latestInOrder_mem logged read v (List.mem_filter.mp member).1

theorem live_of_texts (backed : Backed s) {ids : List RecordId}
    (texts : ids.map (·.text) = (s.indexRows tag).map (·.id)) {id : RecordId} (asked : id ∈ ids) :
    LiveUnder tag s id := by
  obtain ⟨row, listed, names, tagged⟩ := (mem_ids_iff texts).mp asked
  exact liveUnder_of_row backed listed names tagged

theorem shown_live {turns : List Turn} {sizes : List Nat} {pages : List ResultSet}
    {blocks : List (List RecordId)} {v : Version} (session : Session turns s)
    (held : List.Forall₂ (Holds s tag) blocks pages)
    (texts : blocks.flatten.map (·.text) = (s.indexRows tag).map (·.id))
    (met : (walk (Store.answer now) tag sizes none).outcome s = (.ok pages, t))
    (member : v ∈ shown pages) :
    (entries (Ledger.log turns) v.id).getLast? = some v ∧ v.tag = tag ∧ v.payload ≠ tombstone ∧
      v ∈ Ledger.log turns := by
  have logged := session.logged
  have backed := session.backed
  have stored : v ∈ Ledger.log turns := by
    obtain ⟨page, among, listed⟩ := List.mem_flatMap.mp member
    exact walk_forall (P := fun page => ∀ v ∈ page.remaining, v ∈ Ledger.log turns)
      (fun k before page answered => fetch_mem logged answered) met page among v listed
  obtain ⟨asked, tagged, latest⟩ := shown_latest held backed.sound member
  obtain ⟨r, backs, live, _⟩ := live_of_texts backed texts asked
  obtain rfl : r = v.row := Latest.unique backed.sound.keyed backs latest
  exact ⟨(logged.latest_iff backed.sound stored).mp latest, tagged, live, stored⟩

end Ledger

end RecordLedger
