import RecordLedger.Proofs.Ledger.Session

/-! The index over whole sessions. A statement may take rows away, so after a session the index need
not list all that is live; but what it lists is live, under the tag of all versions of the id. -/
namespace RecordLedger

namespace Store

structure Backed (s : Store) : Prop where
  sound : Sound s
  rows : ∀ row ∈ s.index, ∃ r, Latest s row.id r ∧ r.payload ≠ tombstone ∧ r.tag = row.tag

variable {s t : Store}

theorem empty_backed : Backed empty := ⟨empty_sound, nofun⟩

/-- Fewer rows of the same history. -/
theorem Backed.fewer (backed : Backed s) (history : t.versions = s.versions)
    (numbers : t.lastVersion = s.lastVersion) (last : t.lastIndex = s.lastIndex)
    (part : t.index.Sublist s.index) : Backed t := by
  have sound := backed.sound
  refine ⟨⟨?_, ?_, sound.single.sublist part, ?_, ?_⟩, ?_⟩
  · rw [history, numbers]
    exact sound.versions
  · rw [last]
    exact sound.index.sublist (part.map _)
  · rw [history]
    exact sound.versionTexts
  · exact fun row listed => sound.indexTexts row (part.subset listed)
  · intro row listed
    obtain ⟨r, latest, backs⟩ := backed.rows row (part.subset listed)
    exact ⟨r, (latest_of_versions_eq history).mpr latest, backs⟩

theorem Backed.removeIndex (backed : Backed s) (id : RecordId) :
    Backed (s.removeIndex id).2 :=
  backed.fewer rfl rfl rfl List.filter_sublist

theorem Backed.trimmed (backed : Backed s) (trimmed : s.Trimmed t) : Backed t := by
  obtain ⟨kept, rfl⟩ := trimmed
  exact backed.fewer rfl rfl rfl List.filter_sublist

theorem upsertIndex_rows (id : RecordId) (tag : Tag) {row : IndexRow}
    (listed : row ∈ (s.upsertIndex id tag).2.index) :
    row ∈ s.index ∨ row.id = id.text ∧ row.tag = tag.text := by
  unfold upsertIndex at listed
  split at listed
  · exact .inl listed
  · split at listed
    · exact .inl listed
    · rcases List.mem_append.mp listed with old | new
      · exact .inl old
      · rw [List.mem_singleton.mp new]
        exact .inr ⟨rfl, rfl⟩

theorem Backed.indexIfLive (backed : Backed s) (id : RecordId) (tag : Tag) :
    Backed (s.indexIfLive id tag).2 := by
  unfold Store.indexIfLive
  dsimp only
  split
  · next live =>
    simp only [List.any_eq_true, Bool.and_eq_true, beq_iff_eq, Bool.not_eq_true',
      isTombstone_eq_false_iff] at live
    obtain ⟨r, stored, ⟨⟨names, tagged⟩, last⟩, live⟩ := live
    have latest : Latest s id.text r := names ▸ (isLatest_iff backed.sound.keyed stored).mp last
    have history := (upsertIndex_history id tag s).1
    have effect := upsertIndex_effect default id tag s
    refine ⟨effect.sound backed.sound, fun row listed => ?_⟩
    rcases upsertIndex_rows id tag listed with old | ⟨own, ownTag⟩
    · obtain ⟨r, latest, backs⟩ := backed.rows row old
      exact ⟨r, (latest_of_versions_eq history).mpr latest, backs⟩
    · rw [own, ownTag]
      exact ⟨r, (latest_of_versions_eq history).mpr latest, live, tagged⟩
  · exact backed

/-- No timestamp of a log is too great to be read. -/
theorem Logged.legible {log : List Version} (logged : Logged log s) (text : String) :
    Legible s text := by
  intro r latest
  obtain ⟨v, _, rfl⟩ := logged.mem_versions.mp latest.stored
  exact v.timestamp.fits

theorem Backed.unindexIfDead (backed : Backed s) (id : RecordId) :
    Backed (s.unindexIfDead id).2 := by
  unfold Store.unindexIfDead
  split
  · exact backed.removeIndex id
  · exact backed

end Store

namespace Ledger

open Store (Latest Sound Backed Logged)

variable {s t : Store} {now : Instant} {id : RecordId} {tag : Tag} {payload : String}
  {turns : List Turn} {e : Turn} {past : List Version}

theorem mem_grown {row : Store.IndexRow} :
    row ∈ (grown s now id tag payload).index ↔
      row ∈ s.index ∧ (payload = tombstone → row.id ≠ id.text) ∨
      payload ≠ tombstone ∧ s.isIndexed id.text = false ∧
        row = ⟨s.lastIndex + 1, id.text, tag.text⟩ := by
  unfold grown
  by_cases dead : payload = tombstone
  · simp [dead]
  · cases present : s.isIndexed id.text <;> simp [dead]

/-- The version that is appended is the latest of its record. -/
theorem Room.latest_grown (room : Room s now id tag payload) :
    Latest (grown s now id tag payload) id.text
      (s.newRow now id tag payload (s.lastVersion + 1)) := by
  have pushed : (grown s now id tag payload).versions = s.versions ++ [_] := rfl
  have later : ∀ r ∈ s.versions, r.id = id.text → r.timestamp < s.stamp id.text now :=
    fun r stored names => Store.lt_stamp now ((Store.fitsSigned_iff _).mp room.fits).2 stored names
  exact (Store.latest_push_same pushed later).mpr rfl

/-- An append that keeps the record's tag. -/
theorem grown_backed (backed : Backed s) (room : Room s now id tag payload)
    (tagged : ∀ r ∈ s.versions, r.id = id.text → r.tag = tag.text) :
    Backed (grown s now id tag payload) := by
  have sound : Sound (grown s now id tag payload) := by
    have kept := keeps_append (b := Store.answer now) (P := Sound)
      (fun c ordinary s sound => (Store.answer_effect now c ordinary s).sound sound)
      id tag payload s backed.sound
    rwa [append_room room] at kept
  have pushed : (grown s now id tag payload).versions = s.versions ++ [_] := rfl
  refine ⟨sound, fun row listed => ?_⟩
  -- A row of another id keeps its version. A row of this id is older than the append or made by it,
  -- and the new version is live in both cases: a deletion would have removed the row.
  by_cases own : row.id = id.text
  · have live : payload ≠ tombstone ∧ row.tag = tag.text := by
      rcases mem_grown.mp listed with ⟨old, kept⟩ | ⟨live, _, rfl⟩
      · obtain ⟨r, latest, _, same⟩ := backed.rows row old
        refine ⟨fun dead => kept dead own, ?_⟩
        rw [← same, tagged r latest.stored (latest.names.trans own)]
      · exact ⟨live, rfl⟩
    refine ⟨s.newRow now id tag payload (s.lastVersion + 1), ?_, live.1, live.2.symm⟩
    rw [own]
    exact room.latest_grown
  · rcases mem_grown.mp listed with ⟨old, _⟩ | ⟨_, _, rfl⟩
    · obtain ⟨r, latest, backs⟩ := backed.rows row old
      exact ⟨r, (Store.latest_push_other pushed (Ne.symm own)).mpr latest, backs⟩
    · exact absurd rfl own

theorem Turn.Follows.backed (follows : e.Follows s) (logged : Logged past s) (oneTag : OneTag past)
    (backed : Backed s) : Backed e.after := by
  rcases follows.grows logged with ⟨_, same | other⟩ | ⟨c, payload, room, due, _, _, same⟩
  · rwa [same]
  · exact Request.keeps follows.met other (fun s t trimmed backed => backed.trimmed trimmed)
      (fun id tag s backed => backed.indexIfLive id tag)
      (fun id s backed => backed.unindexIfDead id) backed
  · rw [same]
    refine grown_backed backed room fun r stored names => ?_
    obtain ⟨v, member, rfl⟩ := logged.mem_versions.mp stored
    have own : v ∈ entries past c.id :=
      mem_entries.mpr ⟨member, RecordId.text_injective _ _ names⟩
    exact congrArg Tag.text (Change.due_tag oneTag due v own)

theorem Session.backed (session : Session turns s) : Backed s := by
  induction session with
  | nil => exact Store.empty_backed
  | snoc session follows ih => exact follows.backed session.logged session.oneTag ih

theorem Session.readable (session : Session turns s) (text : String) : Store.Readable s text :=
  (session.logged.legible text).readable session.backed.sound

end Ledger
end RecordLedger
