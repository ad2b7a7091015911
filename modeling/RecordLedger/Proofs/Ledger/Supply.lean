import RecordLedger.Proofs.Ledger.Appearance
import RecordLedger.Proofs.Ledger.Repair

/-! Numbers running out. An append takes a number of the history first and one of the index after
it, so an index that only appends and repairs have touched does not run out before the history does,
and no change fails once its version is stored. -/
namespace RecordLedger.Ledger

variable {s t : Store} {turns : List Turn} {now : Instant} {e : Error}

/-- As long as no statement takes rows away, repairs have nothing to add and appends alone use
numbers of the index. -/
theorem Session.lastIndex_le (session : Session turns s) (untampered : Untampered turns) :
    s.lastIndex ≤ s.lastVersion := by
  induction session with
  | nil => exact Int.le_refl 0
  | @snoc turns s e session follows ih =>
    have before : Untampered turns := fun front other part =>
      untampered front other (part.trans (List.prefix_append turns [e]))
    have less := ih before
    have listed := untampered turns e (List.prefix_refl _)
    rw [session.leftBy_eq] at listed
    have steady := (session.chronicle before).steady
    rcases follows.settled session.logged steady listed with ⟨_, same⟩ | ⟨v, _, same, _⟩
    · rwa [same]
    · rw [same]
      simp only [grown]
      split <;> omega

structure Unlisted (c : Change) (s t : Store) : Prop where
  versions : ∃ row, row.id = c.id.text ∧ row.tag = c.tag.text ∧
    (∃ found, c.settle found = .ok row.payload) ∧ row.payload ≠ tombstone ∧
    t.versions = s.versions ++ [row]
  index : t.index = s.index
  numbers : s.lastVersion < Word.maxSigned
  full : Store.next? s.lastIndex = none
  last : t.lastIndex = s.lastIndex

/-- A deletion lists nothing. -/
theorem Unlisted.of_delete {id : RecordId} {tag : Tag}
    (unlisted : Unlisted (.delete id tag) s t) : False := by
  obtain ⟨row, _, _, ⟨found, settled⟩, live, _⟩ := unlisted.versions
  cases found with
  | none => cases settled
  | some v => exact live (Except.ok.inj settled).symm

/-- A change that fails has changed nothing, or its index step has found no number left. -/
theorem Change.error_cases {c : Change} (early : ∀ r ∈ s.versions, r.timestamp < Word.maxSigned)
    (met : (c.perform (Store.answer now)).outcome s = (.error e, t)) :
    t = s ∨ Unlisted c s t := by
  have frame := c.lookup_frame now s
  rcases Change.cases met with ⟨_, looked, _⟩ | ⟨_, _, looked, _⟩ |
    ⟨found, u, payload, looked, settled, rest⟩
  · rw [looked] at frame
    exact .inl frame
  · rw [looked] at frame
    exact .inl frame
  · rw [looked] at frame
    cases frame
    rcases append_cases rest with ⟨_, failed, _⟩ | ⟨v, w, _, inserted, failed, _⟩ |
      ⟨_, _, _, _, _, other⟩
    · exact .inl (Store.insertVersion_error (fun r stored _ => early r stored) failed)
    · obtain ⟨n, at_, free, _, _, rfl, rfl⟩ := Store.insertVersion_ok inserted
      obtain ⟨rfl, live, full⟩ := Store.answer_syncing_error failed
      exact .inr ⟨⟨_, rfl, rfl, ⟨found, settled⟩, live, rfl⟩, rfl,
        (Store.next?_eq_some_iff.mp free).1, full, rfl⟩
    · cases other

/-- What every failing repair leaves holds after a failing row of repairs. -/
theorem repairEach_error {σ : Type} {s t : σ} {P : σ → Prop} {repair : Drift → Action σ Bool}
    {entries : List Drift}
    (each : ∀ d s e t, (repair d).outcome s = (.error e, t) → P t)
    (met : (repairEach repair entries).outcome s = (.error e, t)) : P t := by
  induction entries generalizing s e with
  | nil => cases met
  | cons d rest ih =>
    rcases Action.bind_cases met with ⟨_, failed, _⟩ | ⟨_, u, _, met⟩
    · exact each d _ _ _ failed
    · rcases Action.bind_cases met with ⟨_, failed, same⟩ | ⟨_, _, _, met⟩
      · exact ih failed
      · cases met

/-- A repair adds a row behind all others or none. -/
theorem indexIfLive_keeps (s : Store) (id : RecordId) (tag : Tag) :
    s.index <+: (s.indexIfLive id tag).2.index := by
  simp only [Store.indexIfLive, Store.upsertIndex]
  split
  · split
    · exact List.prefix_refl _
    · split
      · exact List.prefix_refl _
      · exact List.prefix_append _ _
  · exact List.prefix_refl _

/-- A reconciliation fails for want of a number of the index alone, and by then it has added rows
and removed none. -/
theorem reconcile_error (sound : Store.Sound s)
    (met : (reconcile (Store.answer now)).outcome s = (.error e, t)) :
    s.index <+: t.index ∧ Store.next? t.lastIndex = none := by
  obtain ⟨report, audited, _⟩ := audit_answer sound
  rw [reconcile, Action.outcome_bind_ok (audited now)] at met
  rcases Action.bind_cases met with ⟨_, failed, _⟩ | ⟨_, u, _, met⟩
  · have adding (d : Drift) : Action.Keeps (fun u : Store => s.index <+: u.index)
        (call (Store.answer now) (.indexIfLive d.id d.tag)) :=
      Action.keeps_call fun u behind => behind.trans (indexIfLive_keeps u d.id d.tag)
    have behind := keeps_repairEach adding report.missing s (List.prefix_refl _)
    rw [failed] at behind
    refine ⟨behind, repairEach_error (P := fun t => Store.next? t.lastIndex = none) ?_ failed⟩
    intro d s e t failed
    simp only [Action.outcome_call, Store.answer, Store.indexIfLive] at failed
    split at failed
    · cases answered : s.upsertIndex d.id d.tag with
      | mk answer u =>
        rw [answered] at failed
        cases answer with
        | ok _ => cases failed
        | error f =>
          obtain ⟨rfl, full⟩ := Store.upsertIndex_error answered
          cases failed
          exact full
    · cases failed
  · rcases Action.bind_cases met with ⟨_, failed, _⟩ | ⟨_, _, _, met⟩
    · refine (repairEach_error (P := fun _ => False) ?_ failed).elim
      intro d s e t failed
      simp only [Action.outcome_call, Store.answer, Store.unindexIfDead,
        Store.removeIndex] at failed
      split at failed <;> cases failed
    · cases met

end RecordLedger.Ledger
