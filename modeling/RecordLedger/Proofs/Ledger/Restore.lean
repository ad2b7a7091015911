import RecordLedger.Proofs.Ledger.Session

/-! Restoring by timestamp. The timestamps of a record increase, so each names one version, and
since versions are never changed it names that version for good. -/
namespace RecordLedger.Ledger

open Store (Logged)

/-- The versions that a turn has shown to its caller, as the answer to a change or in a history. -/
def Turn.shown : Turn → List Version
  | ⟨_, .operation (.change _), .ok v, _⟩ => [v]
  | ⟨_, .operation (.history _), .ok found, _⟩ => found.remaining
  | _ => []

variable {s t : Store} {turns : List Turn} {past : List Version} {e : Turn} {v : Version}

/-- What is shown has been appended before or by the turn itself. -/
theorem Turn.Follows.shown_mem (follows : e.Follows s) (logged : Logged past s)
    (shown : v ∈ e.shown) : v ∈ past ++ e.appended?.toList := by
  obtain ⟨now, request, outcome, after⟩ := e
  cases request with
  | operation o =>
    cases o with
    | change c =>
      cases outcome with
      | error f => cases shown
      | ok w => exact List.mem_append_right _ shown
    | history id =>
      have met : (history (Store.answer now) id).outcome s = (outcome, after) := follows.met
      rw [history_logged logged] at met
      cases met
      exact List.mem_append_left _ (mem_entries.mp (List.mem_reverse.mp shown)).1
    | _ => cases shown
  | _ => cases shown

theorem Session.shown_mem (session : Session turns s) (member : e ∈ turns) (shown : v ∈ e.shown) :
    v ∈ log turns := by
  induction session with
  | nil => cases member
  | snoc session follows ih =>
    rw [log_snoc]
    rcases List.mem_append.mp member with old | new
    · exact List.mem_append_left _ (ih old)
    · rw [List.mem_singleton.mp new] at shown
      exact follows.shown_mem session.logged shown

structure Copied (v w : Version) (s t : Store) : Prop where
  id : w.id = v.id
  tag : w.tag = v.tag
  payload : w.payload = v.payload
  versions : t.versions = s.versions ++ [w.row]
  number : ∀ r ∈ s.versions, r.sequence < w.sequence
  later : ∀ r ∈ s.versions, r.id = v.id.text → r.timestamp < w.timestamp.micros

/-- `v` can be found and restored by its timestamp. -/
structure Restorable (v : Version) (s : Store) : Prop where
  found : ∀ now, Store.answer now (.versionAt v.id v.tag v.timestamp) s = (.ok (some v), s)
  restored : ∀ now r t, (restore (Store.answer now) v.id v.tag v.timestamp).outcome s = (r, t) →
    (∀ f, r ≠ .error (.store f)) → ∃ w, r = .ok w ∧ Copied v w s t
  /-- Where no limit stands in the way, no call of the restoration fails. -/
  succeeds : ∀ now, Spare s v →
    ∃ w t, (restore (Store.answer now) v.id v.tag v.timestamp).outcome s = (.ok w, t) ∧
      Copied v w s t

theorem find_entry (logged : Logged past s) (member : v ∈ past) :
    (entries past v.id).find? (fun w => w.tag = v.tag ∧ w.timestamp = v.timestamp) = some v := by
  have listed : v ∈ entries past v.id := mem_entries.mpr ⟨member, rfl⟩
  refine Store.find?_eq_some listed (by simp) fun w other fields => ?_
  have times : w.timestamp = v.timestamp := (of_decide_eq_true fields).2
  refine Store.eq_of_pairwise (logged.entries_later v.id) other listed ?_ ?_ <;>
    rw [times] <;> exact Int.lt_irrefl _

theorem append_copies {now : Instant} {w : Version} (logged : Logged past s)
    (met : (append (Store.answer now) v.id v.tag v.payload).outcome s = (.ok w, t)) :
    Copied v w s t := by
  obtain ⟨inserted, names, tagged, holds⟩ := append_inserted logged.numbered.start met
  exact ⟨names, tagged, holds, inserted.grown, inserted.above logged.numbered,
    fun r stored own => inserted.later r stored (names ▸ own)⟩

theorem Restorable.of_mem (logged : Logged past s) (member : v ∈ past) : Restorable v s := by
  have listed := find_entry logged member
  let c : Change := .restore v.id v.tag v.timestamp
  have due : c.due past = .ok v.payload := by simp only [c, Change.due, listed]
  have demanded : ∀ now, (restore (Store.answer now) v.id v.tag v.timestamp).outcome s =
      (append (Store.answer now) v.id v.tag v.payload).outcome s := by
    intro now
    have performed := c.perform_logged logged now
    rwa [due] at performed
  refine ⟨fun now => ?_, fun now r t met undisturbed => ?_, fun now spare => ?_⟩
  · simp only [Store.answer, logged.versionAt_eq, listed]
  · rw [demanded] at met
    cases r with
    | error f =>
      obtain ⟨g, rfl⟩ := append_error met
      exact absurd rfl (undisturbed g)
    | ok w => exact ⟨w, rfl, append_copies logged met⟩
  · have done := append_room (spare.room now)
    exact ⟨_, _, (demanded now).trans done, append_copies logged done⟩

/-- A timestamp that no version of the record has under the tag is refused. -/
theorem restore_absent {id : RecordId} {tag : Tag} {at_ : Instant} (logged : Logged past s)
    (now : Instant) (absent : ∀ r ∈ s.versions, r.id = id.text → r.tag = tag.text →
      r.timestamp ≠ at_.micros) :
    (restore (Store.answer now) id tag at_).outcome s =
      (.error (.missing (.versionAt tag id at_)), s) := by
  let c : Change := .restore id tag at_
  have nothing : (entries past id).find? (fun w => w.tag = tag ∧ w.timestamp = at_) = none := by
    refine List.find?_eq_none.mpr fun w member fields => ?_
    obtain ⟨tagged, times⟩ := of_decide_eq_true fields
    obtain ⟨stored, names⟩ := mem_entries.mp member
    exact absent w.row (logged.row_mem stored) (congrArg RecordId.text names)
      (congrArg Tag.text tagged)
      (congrArg Instant.micros times)
  have due : c.due past = .error (.missing (.versionAt tag id at_)) := by
    simp only [c, Change.due, nothing]
  have performed := c.perform_logged logged now
  rwa [due] at performed

/-- Whatever a session has shown of a record can be restored by its timestamp at the end of the
session, and no other timestamp restores anything. -/
theorem shown_restorable (session : Session turns s) :
    (∀ e ∈ turns, ∀ v ∈ e.shown, Restorable v s) ∧
    ∀ now id tag at_, (∀ r ∈ s.versions, r.id = id.text → r.tag = tag.text →
      r.timestamp ≠ at_.micros) →
      (restore (Store.answer now) id tag at_).outcome s =
        (.error (.missing (.versionAt tag id at_)), s) :=
  ⟨fun _ member _ shown => .of_mem session.logged (session.shown_mem member shown),
    fun now _ _ _ absent => restore_absent session.logged now absent⟩

/-- The deletion, which the clock reading 3 did not stamp, and the version that was restored. -/
theorem deletion_restorable :
    let s := left .empty (play restoring .empty)
    let turns := (play restoring .empty).map Turn.ofEvent
    let tag : Tag := ⟨"app.note", by decide⟩
    (∃ e ∈ turns, ⟨2, default, tag, tombstone, ⟨6, rfl⟩⟩ ∈ e.shown) ∧
    Session turns s ∧ Restorable ⟨2, default, tag, tombstone, ⟨6, rfl⟩⟩ s ∧
    ∀ now, (restore (Store.answer now) default tag ⟨3, rfl⟩).outcome s =
      (.error (.missing (.versionAt tag default ⟨3, rfl⟩)), s) := by
  intro s turns tag
  have run := play_run restoring .empty (by decide)
  have session : Session turns s := run.session .nil
  obtain ⟨restorable, refused⟩ := shown_restorable session
  have shown : ∃ e ∈ turns, ⟨2, default, tag, tombstone, ⟨6, rfl⟩⟩ ∈ e.shown :=
    ⟨_, .tail _ (.head _), by decide⟩
  obtain ⟨e, member, inside⟩ := shown
  exact ⟨⟨e, member, inside⟩, session, restorable e member _ inside,
    fun now => refused now default tag ⟨3, rfl⟩ (by decide)⟩

def replaced : Store :=
  { once with versions := [⟨1, (default : RecordId).text, "app.note", "2", 5⟩] }

/-- The version that the write has shown is not to be had any more. -/
theorem replaced_not_restorable :
    let turns := writing.map Turn.ofEvent
    let v : Version := ⟨1, default, ⟨"app.note", by decide⟩, "[1]", ⟨5, rfl⟩⟩
    Session turns once ∧ (∃ e ∈ turns, v ∈ e.shown) ∧
      (query (Store.answer default) Query.replacing []).outcome once =
        (.ok (.unpaginated []), replaced) ∧ ¬ Restorable v replaced := by
  intro turns v
  have performed : once.perform [] Query.replaces = (.ok [], replaced) := by decide +kernel
  refine ⟨writing_session, ⟨_, .head _, by decide⟩,
    query_disguised Query.replacing_resolved performed default, fun restorable => ?_⟩
  have found := congrArg (·.1.toOption.map (·.map (·.payload))) (restorable.found default)
  exact absurd found (by decide)

end RecordLedger.Ledger
