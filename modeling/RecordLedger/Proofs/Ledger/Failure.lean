import RecordLedger.Proofs.Ledger.Change

/-! Changes whose calls may fail. A change makes a lookup, an insertion and an index step, and any
of them can be the one that fails; what is left behind is at most the one version that was
inserted. -/
namespace RecordLedger.Store

def OnlyFailures (pending : List Interruption) : Prop := ∀ i ∈ pending, i.calls = []

theorem take_onlyFailures (m : Method) {pending : List Interruption}
    (quiet : OnlyFailures pending) :
    OnlyFailures (Interruption.take m pending).2 ∧
      ∀ i, (Interruption.take m pending).1 = some i → i.calls = [] := by
  induction pending with
  | nil =>
    refine ⟨quiet, fun i taken => ?_⟩
    cases taken
  | cons i rest ih =>
    obtain ⟨first, others⟩ := List.forall_mem_cons.mp quiet
    obtain ⟨left, taken⟩ := ih others
    unfold Interruption.take
    split
    · split
      · refine ⟨List.forall_mem_cons.mpr ⟨first, others⟩, fun i taken => ?_⟩
        cases taken
      · refine ⟨others, fun i taken => ?_⟩
        cases taken
        exact first
    · exact ⟨List.forall_mem_cons.mpr ⟨first, left⟩, taken⟩

/-- A call fails without any effect or meets the store. -/
theorem interrupted_cases {b : Backend σ} {c : Call} {answer : Except Error c.Answer}
    {s t : Interrupted σ} (quiet : OnlyFailures s.pending)
    (met : b.interrupted c s = (answer, t)) :
    OnlyFailures t.pending ∧
      (((∃ e, answer = .error e) ∧ t.store = s.store) ∨ b c s.store = (answer, t.store)) := by
  obtain ⟨left, taken⟩ := take_onlyFailures c.method quiet
  unfold Backend.interrupted at met
  split at met
  · next pending found =>
    cases met
    rw [found] at left
    exact ⟨left, .inr rfl⟩
  · next i pending found =>
    rw [found] at left taken
    have idle : b.runAll i.calls s.store = s.store := by rw [taken i rfl]; rfl
    rw [idle] at met
    split at met
    · cases met
      exact ⟨left, .inl ⟨⟨_, rfl⟩, rfl⟩⟩
    · cases met
      exact ⟨left, .inr rfl⟩

structure Recorded (σ : Type) where
  state : σ
  made : List (Method × Bool)

namespace Backend

def recorded (b : Backend σ) : Backend (Recorded σ) := fun c s =>
  let (answer, state) := b c s.state
  (answer, ⟨state, s.made ++ [(c.method, answer.isOk)]⟩)

end Backend
end RecordLedger.Store

namespace RecordLedger.Ledger

open Store (Latest Live Method OnlyFailures syncing)

def trial (now : Instant) : Store.Backend (Store.Recorded (Store.Interrupted Store)) :=
  (Store.answer now).interrupted.recorded

variable {now : Instant} {call : Store.Call} {c : Change}
  {r : Except Error Version} {t u : Store.Recorded (Store.Interrupted Store)}

theorem trial_ok {x : call.Answer} (quiet : OnlyFailures t.state.pending)
    (met : trial now call t = (.ok x, u)) :
    OnlyFailures u.state.pending ∧ u.made = t.made ++ [(call.method, true)] ∧
      Store.answer now call t.state.store = (.ok x, u.state.store) := by
  unfold trial Store.Backend.recorded at met
  cases answered : (Store.answer now).interrupted call t.state with
  | mk answer state =>
    rw [answered] at met
    cases met
    obtain ⟨left, ⟨⟨_, failed⟩, _⟩ | passed⟩ := Store.interrupted_cases quiet answered
    · cases failed
    · exact ⟨left, rfl, passed⟩

theorem trial_error {e : Store.Error} (quiet : OnlyFailures t.state.pending)
    (met : trial now call t = (.error e, u)) :
    u.made = t.made ++ [(call.method, false)] ∧ (u.state.store = t.state.store ∨
      Store.answer now call t.state.store = (.error e, u.state.store)) := by
  unfold trial Store.Backend.recorded at met
  cases answered : (Store.answer now).interrupted call t.state with
  | mk answer state =>
    rw [answered] at met
    cases met
    obtain ⟨_, ⟨_, same⟩ | passed⟩ := Store.interrupted_cases quiet answered
    · exact ⟨rfl, .inl same⟩
    · exact ⟨rfl, .inr passed⟩

theorem Change.lookup_method (c : Change) : .insertVersion ≠ c.lookup.method := by
  cases c <;> nofun

/-- What a change leaves behind, by whether its insertion is among the calls that succeeded. -/
structure Atomic (id : RecordId) (s : Store) (made : List (Method × Bool))
    (r : Except Error Version) (t : Store) : Prop where
  /-- The history has one row more, of that id, if the insertion succeeded. -/
  inserted : (.insertVersion, true) ∈ made →
    ∃ row, row.id = id.text ∧ t.versions = s.versions ++ [row]
  untouched : (.insertVersion, true) ∉ made → t.versions = s.versions
  /-- Something missing, a wrong tag or a value without a payload shows before the insertion. -/
  refused : (∃ e, r = .error e ∧ ∀ f, e ≠ .store f) → (.insertVersion, true) ∉ made
  /-- Every error up to the insertion leaves both relations as they were. -/
  before : (∃ e, r = .error e) → (.insertVersion, true) ∉ made →
    t.versions = s.versions ∧ t.index = s.index
  /-- An error after it leaves the index as it was. -/
  after : (∃ e, r = .error e) → (.insertVersion, true) ∈ made → t.index = s.index
  /-- A change that succeeds leaves its id indexed exactly while it is live. -/
  healed : (∃ v, r = .ok v) → ((∃ row ∈ t.index, row.id = id.text) ↔ Live t id.text)

theorem Atomic.of_unchanged {id : RecordId} {s : Store} {made : List (Method × Bool)} {e : Error}
    (absent : (.insertVersion, true) ∉ made) : Atomic id s made (.error e) s :=
  ⟨fun present => absurd present absent, fun _ => rfl, fun _ => absent, fun _ _ => ⟨rfl, rfl⟩,
    fun _ present => absurd present absent, fun ⟨_, other⟩ => by cases other⟩

/-- The version is in the history although the change failed at its index step. -/
theorem Atomic.of_stray {id : RecordId} {tag : Tag} {payload : String} {n m : Int} {f : Store.Error}
    {s : Store} {made : List (Method × Bool)} (present : (.insertVersion, true) ∈ made) :
    Atomic id s made (.error (.store f))
      { s with versions := s.versions ++ [s.newRow now id tag payload n], lastVersion := m } := by
  refine ⟨fun _ => ⟨_, rfl, rfl⟩, fun absent => absurd present absent, ?_,
    fun _ absent => absurd present absent, fun _ _ => rfl, fun ⟨_, other⟩ => by cases other⟩
  rintro ⟨e, failed, other⟩
  cases failed
  exact absurd rfl (other f)

theorem Appended.live_iff {id : RecordId} {tag : Tag} {payload : String} {s t : Store}
    {v : Version} (appended : Appended now id tag payload s v t) :
    Live t id.text ↔ payload ≠ tombstone :=
  Store.live_push_same appended.versions appended.later

theorem Atomic.of_appended {id : RecordId} {tag : Tag} {payload : String} {s t : Store}
    {v : Version} {made : List (Method × Bool)} (present : (.insertVersion, true) ∈ made)
    (appended : Appended now id tag payload s v t) : Atomic id s made (.ok v) t := by
  refine ⟨fun _ => ⟨_, rfl, appended.versions⟩, fun absent => absurd present absent, ?_,
    fun _ absent => absurd present absent, ?_, ?_⟩
  · rintro ⟨e, other, _⟩
    cases other
  · rintro ⟨e, other⟩
    cases other
  · intro _
    rw [← Store.isIndexed_iff, appended.synced.isIndexed_same, appended.live_iff]

/-- Everything up to the lookup's answer leaves the store as it was and inserts nothing. -/
theorem lookup_met {answer : Except Store.Error c.lookup.Answer} {pending : List Store.Interruption}
    {s : Store} (quiet : OnlyFailures pending)
    (met : trial now c.lookup ⟨⟨s, pending⟩, []⟩ = (answer, t)) :
    t.state.store = s ∧ ∀ done, (.insertVersion, done) ∉ t.made := by
  have frame := c.lookup_frame now s
  have absent : ∀ done, t.made = [] ++ [(c.lookup.method, answer.isOk)] →
      (.insertVersion, done) ∉ t.made := by
    intro done made
    simp only [made, List.nil_append, List.mem_singleton, Prod.mk.injEq]
    exact fun both => c.lookup_method both.1
  cases answer with
  | error e =>
    obtain ⟨made, same | answered⟩ := trial_error quiet met
    · exact ⟨same, fun done => absent done made⟩
    · rw [answered] at frame
      exact ⟨frame, fun done => absent done made⟩
  | ok x =>
    obtain ⟨_, made, answered⟩ := trial_ok quiet met
    rw [answered] at frame
    exact ⟨frame, fun done => absent done made⟩

/-- The calls behind the lookup: the insertion fails, the index step fails, or neither does. -/
theorem append_atomic {id : RecordId} {tag : Tag} {payload : String}
    (quiet : OnlyFailures u.state.pending) (absent : ∀ done, (.insertVersion, done) ∉ u.made)
    (early : ∀ r ∈ u.state.store.versions, r.id = id.text → r.timestamp < Word.maxSigned)
    (met : (append (trial now) id tag payload).outcome u = (r, t)) :
    Atomic id u.state.store t.made r t.state.store := by
  rcases append_cases met with ⟨e, failed, refused⟩ | ⟨v, w, e, inserted, failed, refused⟩ |
    ⟨v, w, x, inserted, synced, done⟩
  · obtain ⟨made, unchanged⟩ := trial_error quiet failed
    have same : t.state.store = u.state.store := by
      rcases unchanged with unchanged | answered
      · exact unchanged
      · exact Store.insertVersion_error early answered
    rw [same, refused]
    apply Atomic.of_unchanged
    simp only [made, List.mem_append, List.mem_singleton, Prod.mk.injEq, Bool.true_eq_false,
      and_false, or_false]
    exact absent true
  · obtain ⟨left, made, answered⟩ := trial_ok quiet inserted
    obtain ⟨n, at_, free, stamped, -, rfl, grown⟩ := Store.insertVersion_ok answered
    obtain ⟨after, unchanged⟩ := trial_error left failed
    have same : t.state.store = w.state.store := by
      rcases unchanged with unchanged | answered
      · exact unchanged
      · exact (Store.answer_syncing_error answered).1
    rw [same, grown, refused]
    apply Atomic.of_stray
    rw [after, made]
    exact List.mem_append_left _ (List.mem_append_right _ List.mem_cons_self)
  · obtain ⟨left, made, answered⟩ := trial_ok quiet inserted
    obtain ⟨_, after, aligned⟩ := trial_ok left synced
    rw [done]
    refine Atomic.of_appended ?_ (appended_of_answers answered aligned)
    rw [after, made]
    exact List.mem_append_left _ (List.mem_append_right _ List.mem_cons_self)

/-- A change may fail at any of its calls, in any store and whatever earlier failures have done to
its index. The timestamps must only be before the last instant, since a stamp beyond it would be
stored although its insertion fails. -/
theorem change_atomic (c : Change) (now : Instant) (pending : List Store.Interruption) (s : Store)
    (quiet : OnlyFailures pending) (early : ∀ r ∈ s.versions, r.timestamp < Word.maxSigned)
    (met : (c.perform (trial now)).outcome ⟨⟨s, pending⟩, []⟩ = (r, t)) :
    Atomic c.id s t.made r t.state.store := by
  rcases Change.cases met with ⟨e, looked, failed⟩ | ⟨found, e, looked, settled, failed⟩ |
    ⟨found, u, payload, looked, settled, rest⟩
  · obtain ⟨same, absent⟩ := lookup_met quiet looked
    rw [same, failed]
    exact .of_unchanged (absent true)
  · obtain ⟨same, absent⟩ := lookup_met quiet looked
    rw [same, failed]
    exact .of_unchanged (absent true)
  · obtain ⟨same, absent⟩ := lookup_met quiet looked
    obtain ⟨left, _, _⟩ := trial_ok quiet looked
    rw [← same] at early ⊢
    exact append_atomic left absent (fun r stored _ => early r stored) rest

def unindexed : Store := ⟨[⟨1, (default : RecordId).text, "app.note", "[1]", 5⟩], [], 1, 0⟩

/-- The record is deleted and the index step fails again: the deletion stays in the history. -/
theorem unindexed_delete_atomic :
    let c : Change := .delete default ⟨"app.note", by decide⟩
    let pending : List Store.Interruption := [⟨.removeIndex, 0, [], some .statement⟩]
    let left := (c.perform (trial ⟨3, rfl⟩)).outcome ⟨⟨unindexed, pending⟩, []⟩
    left.2.made = [(.latestVersion, true), (.insertVersion, true), (.removeIndex, false)] ∧
    OnlyFailures pending ∧ (∀ r ∈ unindexed.versions, r.timestamp < Word.maxSigned) ∧
    Atomic default unindexed left.2.made left.1 left.2.state.store := by
  intro c pending left
  have quiet : OnlyFailures pending := by simp [OnlyFailures, pending]
  have early : ∀ r ∈ unindexed.versions, r.timestamp < Word.maxSigned := by decide
  exact ⟨by decide, quiet, early, change_atomic c ⟨3, rfl⟩ pending unindexed quiet early rfl⟩

end RecordLedger.Ledger
