import RecordLedger.Proofs.Ledger.Outcome
import RecordLedger.Proofs.Store.Append
import RecordLedger.Proofs.Store.Lookup

/-! The three operations that append to the history, as one. Each looks something up, settles on a
payload or refuses, appends one version and brings the index in line with it. -/
namespace RecordLedger.Ledger

inductive Change
  | write (fresh : RecordId) (draft : Draft)
  | delete (id : RecordId) (tag : Tag)
  | restore (id : RecordId) (tag : Tag) (at_ : Instant)

namespace Change

def perform (b : Store.Backend σ) : Change → Action σ Version
  | .write fresh draft => Ledger.write b fresh draft
  | .delete id tag => Ledger.delete b id tag
  | .restore id tag at_ => Ledger.restore b id tag at_

def id : Change → RecordId
  | .write fresh draft => draft.id.getD fresh
  | .delete id _ => id
  | .restore id _ _ => id

def tag : Change → Tag
  | .write _ draft => draft.tag
  | .delete _ tag => tag
  | .restore _ tag _ => tag

def lookup : Change → Store.Call
  | .write fresh draft => .tagOf (draft.id.getD fresh)
  | .delete id tag => .latestVersion id tag
  | .restore id tag at_ => .versionAt id tag at_

def settle : (c : Change) → c.lookup.Answer → Except Error String
  | .write fresh draft, first =>
    if first.all (· = draft.tag) then draft.payload.mapError .unencodable
    else .error (.otherTag (draft.id.getD fresh) (first.getD draft.tag) draft.tag)
  | .delete id tag, none => .error (.missing (.record tag id))
  | .delete _ _, some _ => .ok tombstone
  | .restore id tag at_, none => .error (.missing (.versionAt tag id at_))
  | .restore _ _ _, some v => .ok v.payload

def finish (b : Store.Backend σ) (c : Change) : Except Error String → Action σ Version
  | .error e => throw e
  | .ok payload => append b c.id c.tag payload

theorem perform_eq (b : Store.Backend σ) (c : Change) :
    c.perform b = call b c.lookup >>= fun found => c.finish b (c.settle found) := by
  cases c with
  | write fresh draft =>
    simp only [perform, Ledger.write, lookup, settle]
    congr 1
    funext first
    cases first with
    | none => cases draft.payload <;> rfl
    | some first =>
      by_cases same : first = draft.tag
      · subst same
        cases draft.payload <;> simp <;> rfl
      · simp [same]; rfl
  | delete id tag =>
    simp only [perform, Ledger.delete, lookup, settle]
    congr 1
    funext found
    cases found <;> rfl
  | restore id tag at_ =>
    simp only [perform, Ledger.restore, lookup, settle]
    congr 1
    funext found
    cases found <;> rfl

end Change

open Store (syncing)

variable {b : Store.Backend σ} {s t : σ} {r : Except Error Version}

theorem syncIndex_cases {v : Version} {r : Except Error Unit}
    (met : (syncIndex b v).outcome s = (r, t)) :
    (∃ e, b (syncing v.id v.tag v.payload) s = (.error e, t) ∧ r = .error (.store e)) ∨
    ∃ x, b (syncing v.id v.tag v.payload) s = (.ok x, t) ∧ r = .ok () := by
  have reduced :
      (call b (syncing v.id v.tag v.payload) >>= fun _ => pure ()).outcome s = (r, t) := by
    rw [← met]
    unfold syncIndex syncing Version.isTombstone
    split
    · next dead => rw [if_pos dead]
    · next live => rw [if_neg live]
  rcases Action.call_bind_cases reduced with failed | ⟨x, u, answered, rest⟩
  · exact .inl failed
  · cases rest
    exact .inr ⟨x, answered, rfl⟩

/-- An append stops at its first call, at its second, or succeeds. -/
theorem append_cases {id : RecordId} {tag : Tag} {payload : String}
    (met : (append b id tag payload).outcome s = (r, t)) :
    (∃ e, b (.insertVersion id tag payload) s = (.error e, t) ∧ r = .error (.store e)) ∨
    (∃ v u e, b (.insertVersion id tag payload) s = (.ok v, u) ∧
      b (syncing v.id v.tag v.payload) u = (.error e, t) ∧ r = .error (.store e)) ∨
    ∃ v u x, b (.insertVersion id tag payload) s = (.ok v, u) ∧
      b (syncing v.id v.tag v.payload) u = (.ok x, t) ∧ r = .ok v := by
  rcases Action.call_bind_cases met with failed | ⟨v, u, inserted, rest⟩
  · exact .inl failed
  · right
    rcases Action.bind_cases rest with ⟨e, failed, rfl⟩ | ⟨_, w, synced, rest⟩
    · rcases syncIndex_cases failed with ⟨e, answered, same⟩ | ⟨_, _, other⟩
      · cases same
        exact .inl ⟨v, u, e, inserted, answered, rfl⟩
      · cases other
    · cases rest
      rcases syncIndex_cases synced with ⟨_, _, other⟩ | ⟨x, answered, _⟩
      · cases other
      · exact .inr ⟨v, u, x, inserted, answered, rfl⟩

theorem append_error {id : RecordId} {tag : Tag} {payload : String} {e : Error}
    (met : (append b id tag payload).outcome s = (.error e, t)) : ∃ f, e = .store f := by
  rcases append_cases met with ⟨f, _, failed⟩ | ⟨_, _, f, _, _, failed⟩ | ⟨_, _, _, _, _, other⟩
  · exact ⟨f, Except.error.inj failed⟩
  · exact ⟨f, Except.error.inj failed⟩
  · cases other

/-- A change stops at its lookup, is refused after it, or goes on to append. -/
theorem Change.cases {c : Change} (met : (c.perform b).outcome s = (r, t)) :
    (∃ e, b c.lookup s = (.error e, t) ∧ r = .error (.store e)) ∨
    (∃ found e, b c.lookup s = (.ok found, t) ∧ c.settle found = .error e ∧ r = .error e) ∨
    ∃ found u payload, b c.lookup s = (.ok found, u) ∧ c.settle found = .ok payload ∧
      (append b c.id c.tag payload).outcome u = (r, t) := by
  rw [c.perform_eq] at met
  rcases Action.call_bind_cases met with failed | ⟨found, u, answered, rest⟩
  · exact .inl failed
  · right
    cases settled : c.settle found with
    | error e =>
      rw [settled] at rest
      cases rest
      exact .inl ⟨found, e, answered, settled, rfl⟩
    | ok payload =>
      rw [settled] at rest
      exact .inr ⟨found, u, payload, answered, settled, rest⟩

theorem Change.lookup_frame (now : Instant) (c : Change) (s : Store) :
    (Store.answer now c.lookup s).2 = s := by
  cases c <;> rfl

/-- An id keeps its tag: a change that goes on either meets no version of its id or one that has
the tag it appends under. -/
theorem Change.tag_met {c : Change} {found : c.lookup.Answer} {s : Store} {payload : String}
    (answered : (Store.answer now c.lookup s).1 = .ok found)
    (settled : c.settle found = .ok payload) :
    (∀ r ∈ s.versions, r.id ≠ c.id.text) ∨
    ∃ r ∈ s.versions, r.id = c.id.text ∧ r.tag = c.tag.text := by
  cases c with
  | write fresh draft =>
    cases found with
    | none => exact .inl (Store.tagOf_none answered)
    | some first =>
      simp only [settle, Option.all_some, decide_eq_true_eq] at settled
      split at settled
      · next same =>
        subst same
        exact .inr (Store.tagOf_some answered)
      · cases settled
  | delete id tag =>
    cases found with
    | none => cases settled
    | some v => exact .inr (Store.latestVersion_some answered)
  | restore id tag at_ =>
    cases found with
    | none => cases settled
    | some v => exact .inr (Store.versionAt_some answered)

/-- One version more in the history and the index in line with it. -/
structure Appended (now : Instant) (id : RecordId) (tag : Tag) (payload : String) (s : Store)
    (v : Version) (t : Store) : Prop where
  free : Store.next? s.lastVersion = some (s.lastVersion + 1)
  stamp : s.stamp id.text now = v.timestamp.micros
  version : v = ⟨Word.unsigned (s.lastVersion + 1), id, tag, payload, v.timestamp⟩
  versions : t.versions = s.versions ++ [s.newRow now id tag payload (s.lastVersion + 1)]
  synced : Store.Synced s id tag payload t.index

theorem Appended.later {now : Instant} {id : RecordId} {tag : Tag} {payload : String}
    {s t : Store} {v : Version} (appended : Appended now id tag payload s v t) :
    ∀ r ∈ s.versions, r.id = id.text → r.timestamp < s.stamp id.text now := by
  intro r stored names
  have bound := (Store.fitsSigned_iff _).mp v.timestamp.fits
  exact Store.lt_stamp now (appended.stamp ▸ bound.2) stored names

theorem appended_of_answers {now : Instant} {id : RecordId} {tag : Tag} {payload : String}
    {s u t : Store} {v : Version} {x : (syncing v.id v.tag v.payload).Answer}
    (inserted : Store.answer now (.insertVersion id tag payload) s = (.ok v, u))
    (synced : Store.answer now (syncing v.id v.tag v.payload) u = (.ok x, t)) :
    Appended now id tag payload s v t := by
  obtain ⟨n, at_, free, stamped, -, rfl, rfl⟩ := Store.insertVersion_ok inserted
  obtain ⟨_, rfl⟩ := Store.next?_eq_some_iff.mp free
  obtain ⟨history, index⟩ := Store.answer_syncing_ok synced
  exact ⟨free, stamped, rfl, history, index.of_index_eq rfl rfl⟩

theorem append_answer {now : Instant} {id : RecordId} {tag : Tag} {payload : String}
    {s t : Store} {v : Version}
    (met : (append (Store.answer now) id tag payload).outcome s = (.ok v, t)) :
    Appended now id tag payload s v t := by
  rcases append_cases met with ⟨_, _, other⟩ | ⟨_, _, _, _, _, other⟩ |
    ⟨v, u, x, inserted, synced, same⟩
  · cases other
  · cases other
  · cases same
    exact appended_of_answers inserted synced

/-- On the store itself a change whose calls all succeed either is refused and changes nothing, or
appends what it settled on. -/
theorem Change.answer_cases {c : Change} {now : Instant} {s t : Store} {r : Except Error Version}
    (met : (c.perform (Store.answer now)).outcome s = (r, t))
    (undisturbed : ∀ f, r ≠ .error (.store f)) :
    ((∃ e, r = .error e) ∧ t = s) ∨
    ∃ found payload v, (Store.answer now c.lookup s).1 = .ok found ∧
      c.settle found = .ok payload ∧ r = .ok v ∧ Appended now c.id c.tag payload s v t := by
  have frame := c.lookup_frame now s
  rcases Change.cases met with ⟨e, _, failed⟩ | ⟨found, e, looked, _, refused⟩ |
    ⟨found, u, payload, looked, settled, rest⟩
  · exact absurd failed (undisturbed e)
  · rw [looked] at frame
    exact .inl ⟨⟨e, refused⟩, frame⟩
  · rw [looked] at frame
    cases frame
    cases r with
    | error e =>
      obtain ⟨f, rfl⟩ := append_error rest
      exact absurd rfl (undisturbed f)
    | ok v => exact .inr ⟨found, payload, v, by rw [looked], settled, rfl, append_answer rest⟩

end RecordLedger.Ledger
