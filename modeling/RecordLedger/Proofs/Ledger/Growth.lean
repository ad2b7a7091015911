import RecordLedger.Proofs.Ledger.Backing
import RecordLedger.Proofs.Ledger.Repair
import RecordLedger.Proofs.Store.Growth

/-! What stays of a store while operations go on: all versions, and the index row of every id that
no deletion is appended to. New index rows have numbers beyond all that were used before. A
statement may have taken rows away before, so not all that is live need have a row. -/
namespace RecordLedger.Ledger

open Store (Latest Live Later IndexRow)

variable {s t : Store} {e : Event} {turns : List Turn} {row : IndexRow}

theorem Advance.later (step : Advance s e) : Later s e.after := by
  have kept := keeps_operation (b := Store.answer e.now) (P := Later s)
    (fun c ordinary u later => later.trans (Store.answer_effect e.now c ordinary u).later)
    e.operation s (.refl s)
  rwa [step.met] at kept

theorem Run.later (run : Run s events t) : Later s t := by
  induction run with
  | nil => exact .refl _
  | cons step _ ih => exact step.later.trans ih

/-- What is no change keeps the rows of all live records. -/
theorem Advance.row_kept_unchanged (step : Advance s e) (backed : Store.Backed s)
    (other : ∀ c, e.operation ≠ .change c) (stored : row ∈ s.index) : row ∈ e.after.index := by
  obtain ⟨now, operation, outcome, after⟩ := e
  have reading (reads : operation.Reads) : row ∈ after.index := by
    have frame := keeps_reading now operation reads s
    rw [step.met] at frame
    have same : after = s := frame
    rwa [same]
  cases operation with
  | change c => exact absurd rfl (other c)
  | reconcile =>
    obtain ⟨_, _, _, _, _, rfl⟩ := reconcile_answer backed.sound step.met step.undisturbed
    obtain ⟨r, latest, live, _⟩ := backed.rows row stored
    have alive := (Store.isDead_eq_false_iff backed.sound.keyed).mpr ⟨r, latest, live⟩
    exact List.mem_append_left _ (List.mem_filter.mpr ⟨stored, by rw [alive]; rfl⟩)
  | _ => exact reading trivial

/-- An index row goes only with a deletion of its id, which is then the id's latest version. -/
theorem Advance.row_kept (step : Advance s e) (session : Session turns s) (stored : row ∈ s.index) :
    row ∈ e.after.index ∨
      ∃ r, Latest e.after row.id r ∧ r ∉ s.versions ∧ r.payload = tombstone := by
  have backed := session.backed
  rcases step.follows.grows session.logged with
    ⟨_, same | other⟩ | ⟨c, payload, room, _, _, _, same⟩
  · have same : e.after = s := same
    exact .inl (by rwa [same])
  · refine .inl (step.row_kept_unchanged backed (fun c same => other c ?_) stored)
    exact congrArg Request.operation same
  · have same : e.after = grown s e.now c.id c.tag payload := same
    rw [same]
    by_cases gone : payload = tombstone ∧ row.id = c.id.text
    · obtain ⟨dead, names⟩ := gone
      have latest : Latest (grown s e.now c.id c.tag payload) row.id
          (s.newRow e.now c.id c.tag payload (s.lastVersion + 1)) := by
        rw [names]
        exact room.latest_grown
      refine .inr ⟨_, latest, fun old => ?_, dead⟩
      have used := backed.sound.versions.used _ (List.mem_map_of_mem (f := (·.sequence)) old)
      exact Int.not_le.mpr (Int.lt_succ _) used
    · exact .inl (mem_grown.mpr (.inl ⟨stored, fun dead names => gone ⟨dead, names⟩⟩))

theorem Advance.session (step : Advance s e) (session : Session turns s) :
    Session (turns ++ [Turn.ofEvent e]) e.after :=
  session.snoc step.follows

theorem Advance.row_kept_of_live (step : Advance s e) (session : Session turns s)
    (stored : row ∈ s.index) (live : Live e.after row.id) : row ∈ e.after.index := by
  rcases step.row_kept session stored with kept | ⟨r, latest, _, dead⟩
  · exact kept
  · obtain ⟨other, latestOther, alive⟩ := live
    rw [latestOther.unique (step.session session).backed.sound.keyed latest] at alive
    exact absurd dead alive

/-- The row of an id stays where no deletion of the id is appended. -/
theorem Run.row_kept (run : Run s events t) (session : Session turns s) (stored : row ∈ s.index)
    (spared : ∀ r ∈ t.versions, r.id = row.id → r.payload = tombstone → r ∈ s.versions) :
    row ∈ t.index := by
  induction run generalizing turns with
  | nil => exact stored
  | @cons s e events t step rest ih =>
    rcases step.row_kept session stored with kept | ⟨r, latest, new, dead⟩
    · exact ih (step.session session) kept fun r member names dead =>
        step.later.history r (spared r member names dead)
    · exact absurd (spared r (rest.later.history r latest.stored) latest.names dead) new

theorem Run.row_kept_of_live (run : Run s events t) (session : Session turns s)
    (stored : row ∈ s.index) (live : ∀ e ∈ events, Live e.after row.id) : row ∈ t.index := by
  induction run generalizing turns with
  | nil => exact stored
  | cons step _ ih =>
    obtain ⟨first, others⟩ := List.forall_mem_cons.mp live
    exact ih (step.session session) (step.row_kept_of_live session stored first) others

end RecordLedger.Ledger
