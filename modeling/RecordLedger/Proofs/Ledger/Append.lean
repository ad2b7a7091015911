import RecordLedger.Proofs.Ledger.Change
import RecordLedger.Proofs.Store.Log

/-! The store after an append, and when an append succeeds: the history has a number left and place
for the row, the index has a number left for a live payload, and the stamp is inside the 64-bit
range. -/
namespace RecordLedger.Ledger

open Store (Inserted)

variable {s t : Store} {now : Instant} {id : RecordId} {tag : Tag} {payload : String} {v : Version}

theorem upsertIndex_room (places : s.lastIndex < Word.maxSigned) :
    s.upsertIndex id tag = (.ok (!s.isIndexed id.text), { s with
      index := if s.isIndexed id.text then s.index
        else s.index ++ [⟨s.lastIndex + 1, id.text, tag.text⟩]
      lastIndex := s.lastIndex + 1 }) := by
  rw [Store.upsertIndex, Store.next?_eq_some_iff.mpr ⟨places, rfl⟩]
  cases s.isIndexed id.text <;> rfl

/-- The store after a version is appended. A number of the index is used by every live payload, even
if the id has a row. -/
def grown (s : Store) (now : Instant) (id : RecordId) (tag : Tag) (payload : String) : Store where
  versions := s.versions ++ [s.newRow now id tag payload (s.lastVersion + 1)]
  index :=
    if payload = tombstone then s.index.filter (·.id != id.text)
    else if s.isIndexed id.text then s.index
    else s.index ++ [⟨s.lastIndex + 1, id.text, tag.text⟩]
  lastVersion := s.lastVersion + 1
  lastIndex := if payload = tombstone then s.lastIndex else s.lastIndex + 1

structure Room (s : Store) (now : Instant) (id : RecordId) (tag : Tag) (payload : String) :
    Prop where
  numbers : s.lastVersion < Word.maxSigned
  taken : s.takes (s.newRow now id tag payload (s.lastVersion + 1)) = true
  places : payload ≠ tombstone → s.lastIndex < Word.maxSigned
  fits : Word.fitsSigned (s.stamp id.text now) = true

def Room.version (room : Room s now id tag payload) : Version :=
  ⟨Word.unsigned (s.lastVersion + 1), id, tag, payload, ⟨_, room.fits⟩⟩

/-- No limit stands in the way of one more version like `v`, whatever its number and its timestamp
are. -/
structure Spare (s : Store) (v : Version) : Prop where
  numbers : s.lastVersion < Word.maxSigned
  places : s.lastIndex < Word.maxSigned
  rows : s.versions.length < Store.maxRows
  bytes : v.row.bytes + 8 ≤ Store.maxBytes
  early : ∀ r ∈ s.versions, r.id = v.id.text → r.timestamp < Word.maxSigned

theorem numberBytes_le (n : Int) : Store.numberBytes n ≤ 8 := by
  unfold Store.numberBytes
  dsimp only
  repeat' split
  all_goals omega

theorem Spare.room (spare : Spare s v) (now : Instant) : Room s now v.id v.tag v.payload := by
  refine ⟨spare.numbers, ?_, fun _ => spare.places, Store.stamp_fits now spare.early⟩
  have bytes := spare.bytes
  have stamp := numberBytes_le (s.stamp v.id.text now)
  have fits : (s.newRow now v.id v.tag v.payload (s.lastVersion + 1)).bytes ≤ Store.maxBytes := by
    simp only [Store.newRow, Store.VersionRow.bytes, Version.row] at bytes ⊢
    omega
  exact Store.takes_iff.mpr ⟨spare.rows, fits⟩

theorem append_room (room : Room s now id tag payload) :
    (append (Store.answer now) id tag payload).outcome s =
      (.ok room.version, grown s now id tag payload) := by
  let v : Version := ⟨Word.unsigned (s.lastVersion + 1), id, tag, payload, ⟨_, room.fits⟩⟩
  let inserted : Store := { s with
    versions := s.versions ++ [s.newRow now id tag payload (s.lastVersion + 1)]
    lastVersion := s.lastVersion + 1 }
  have free := Store.next?_eq_some_iff.mpr ⟨room.numbers, rfl⟩
  have read : Store.readTimestamp (s.stamp id.text now) = .ok ⟨_, room.fits⟩ :=
    (Store.readTimestamp_eq_ok_iff _ _).mpr rfl
  have added : Store.answer now (.insertVersion id tag payload) s = (.ok v, inserted) := by
    have taken : s.takes ⟨s.lastVersion + 1, id.text, tag.text, payload, s.stamp id.text now⟩ =
        true := room.taken
    simp only [Store.answer, Store.insertVersion, free, taken, if_true, read]
    rfl
  rw [append, Action.outcome_call_bind added, Action.outcome_bind, syncIndex]
  by_cases dead : payload = tombstone
  · have buried : v.isTombstone = true := (Store.isTombstone_iff payload).mpr dead
    have removed : Store.answer now (.removeIndex id) inserted = (.ok _, _) := rfl
    rw [if_pos buried, Action.outcome_call_bind removed]
    simp only [grown, if_pos dead]
    rfl
  · have alive : v.isTombstone = false := (Store.isTombstone_eq_false_iff payload).mpr dead
    have placed : Store.answer now (.upsertIndex id tag) inserted = (.ok _, _) :=
      upsertIndex_room (s := inserted) (room.places dead)
    rw [alive, if_neg Bool.false_ne_true, Action.outcome_call_bind placed]
    simp only [grown, if_neg dead]
    rfl

/-- An append that succeeds met no limit. -/
theorem room_of_append (met : (append (Store.answer now) id tag payload).outcome s = (.ok v, t)) :
    Room s now id tag payload := by
  rcases append_cases met with ⟨_, _, other⟩ | ⟨_, _, _, _, _, other⟩ | ⟨w, u, x, made, synced, _⟩
  · cases other
  · cases other
  · obtain ⟨n, at_, free, stamped, taken, rfl, rfl⟩ := Store.insertVersion_ok made
    obtain ⟨numbers, rfl⟩ := Store.next?_eq_some_iff.mp free
    refine ⟨numbers, taken, fun live => ?_, stamped ▸ at_.fits⟩
    have asked : Store.syncing id tag payload = .upsertIndex id tag :=
      if_neg (by simpa [Store.isTombstone_iff] using live)
    dsimp only at x synced
    generalize Store.syncing id tag payload = c at asked x synced
    subst asked
    simp only [Store.answer, Store.upsertIndex] at synced
    split at synced
    · cases synced
    · next m next => exact (Store.next?_eq_some_iff.mp next).1

theorem Room.inserted (room : Room s now id tag payload) (start : 0 ≤ s.lastVersion) :
    Inserted now s room.version (grown s now id tag payload) := by
  have free := room.numbers
  refine ⟨free, rfl, rfl, ?_, rfl⟩
  simp only [grown, Store.newRow, Version.row, Room.version,
    Word.signed_unsigned (n := s.lastVersion + 1)
      (by simp only [Word.minSigned]; omega) (by omega)]

/-- A change that is answered met no limit and has appended its answer. -/
theorem Change.answer_room {c : Change}
    (met : (c.perform (Store.answer now)).outcome s = (.ok v, t)) :
    ∃ payload, ∃ room : Room s now c.id c.tag payload, v = room.version ∧
      t = grown s now c.id c.tag payload := by
  have frame := c.lookup_frame now s
  rcases Change.cases met with ⟨_, _, other⟩ | ⟨_, _, _, _, other⟩ | ⟨_, u, payload, looked, _, rest⟩
  · cases other
  · cases other
  · rw [looked] at frame
    cases frame
    have room := room_of_append rest
    rw [append_room room] at rest
    cases rest
    exact ⟨payload, room, rfl, rfl⟩

theorem append_inserted (start : 0 ≤ s.lastVersion)
    (met : (append (Store.answer now) id tag payload).outcome s = (.ok v, t)) :
    Inserted now s v t ∧ v.id = id ∧ v.tag = tag ∧ v.payload = payload := by
  have room := room_of_append met
  rw [append_room room] at met
  cases met
  exact ⟨room.inserted start, rfl, rfl, rfl⟩

end RecordLedger.Ledger
