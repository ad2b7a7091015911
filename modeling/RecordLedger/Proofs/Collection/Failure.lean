import RecordLedger.Proofs.Collection.Documents

/-! Changes of a collection that fail. A new version is decoded only after the ledger has accepted
it, so a failure leaves the store as it was unless the new version itself is no value of the kind.
-/
namespace RecordLedger.Collection

open Ledger (Session Turn grown)
open Store (Logged)

inductive Change (α : Type)
  | write (fresh : RecordId) (x : α)
  | delete (id : RecordId)
  | restore (id : RecordId) (at_ : Instant)

namespace Change

variable {α σ : Type} [Entity α]

abbrev Answer : Change α → Type
  | .write .. => α
  | .delete _ => Unit
  | .restore .. => Entry α

def perform (b : Store.Backend σ) (c : Collection α) : (g : Change α) → Action σ g.Answer
  | .write fresh x => Collection.write b fresh c x
  | .delete id => Collection.delete b c id
  | .restore id at_ => Collection.restore b c id at_

def inLedger (c : Collection α) : Change α → Ledger.Change
  | .write fresh x => .write fresh (.ofEntity x)
  | .delete id => .delete id c.tag
  | .restore id at_ => .restore id c.tag at_

def IsDelete : Change α → Prop
  | .delete _ => True
  | _ => False

end Change

variable {α β : Type} {s t : Store} {log : List Version} {now : Instant} {e : Error}

/-- A change of the ledger is refused, or what is done with its answer fails on the store that the
append has left. -/
theorem failed_cases {k : Ledger.Change} {after : Version → Action Store β}
    (met : (onLedger (k.perform (Store.answer now)) >>= after).outcome s = (.error e, t))
    (undisturbed : ∀ f, e ≠ .ledger (.store f)) :
    t = s ∨ ∃ v u, (k.perform (Store.answer now)).outcome s = (.ok v, u) ∧
      u = grown s now v.id v.tag v.payload ∧ (after v).outcome u = (.error e, t) := by
  cases performed : (k.perform (Store.answer now)).outcome s with
  | mk answer u =>
    cases answer with
    | error f =>
      cases (Action.outcome_bind_error (Action.outcome_wrap_error performed)).symm.trans met
      rcases Ledger.Change.answer_cases performed fun g same =>
          undisturbed g (congrArg Error.ledger (Except.error.inj same)) with
        ⟨_, same⟩ | ⟨_, _, _, _, _, other, _⟩
      · exact .inl same
      · cases other
    | ok v =>
      obtain ⟨payload, room, rfl, rfl⟩ := Ledger.Change.answer_room performed
      exact .inr ⟨_, _, rfl, rfl,
        (Action.outcome_bind_ok (Action.outcome_wrap_ok performed)).symm.trans met⟩

variable [Entity α]

/-- A change that failed after the ledger had accepted it. What it appended stays, with the index in
line. -/
structure Stranded (now : Instant) (c : Collection α) (g : Change α) (e : Error) (s t : Store)
    (v : Version) : Prop where
  accepted : ((g.inLedger c).perform (Store.answer now)).outcome s = (.ok v, t)
  grown : t = Ledger.grown s now v.id v.tag v.payload
  undecodable : Decodable.decode? (α := α) v.payload = none
  named : e = .ledger (.undecodable v.tag v.id v.sequence)
  other : ¬ g.IsDelete

/-- A version that cannot be decoded is no value of the kind, unless a call has failed. -/
theorem decode_failed {v : Version}
    (met : (decode (α := α) (Store.answer now) v).outcome s = (.error e, t))
    (undisturbed : ∀ f, e ≠ .ledger (.store f)) :
    t = s ∧ Decodable.decode? (α := α) v.payload = none ∧
      e = .ledger (.undecodable v.tag v.id v.sequence) := by
  rcases Action.bind_cases met with ⟨f, failed, same⟩ | ⟨x, u, _, rest⟩
  · cases same
    cases scanned : (Ledger.scan (α := α) (Store.answer now) v).outcome s with
    | mk answer u =>
      cases answer with
      | ok x => cases (Action.outcome_wrap_ok scanned).symm.trans failed
      | error g =>
        cases (Action.outcome_wrap_error scanned).symm.trans failed
        rcases Action.call_bind_cases scanned with ⟨f, _, same⟩ | ⟨found, w, looked, rest⟩
        · exact absurd (congrArg Error.ledger (Except.error.inj same)) (undisturbed f)
        · obtain ⟨_, rfl⟩ := Prod.mk.inj looked
          cases decoded : Decodable.decode? (α := α) v.payload with
          | none =>
            rw [Version.decode?, decoded] at rest
            cases rest
            exact ⟨rfl, rfl, rfl⟩
          | some body =>
            rw [Version.decode?, decoded] at rest
            cases rest
  · cases rest

theorem entry_failed {v : Version}
    (met : (entry (α := α) (Store.answer now) v).outcome s = (.error e, t))
    (undisturbed : ∀ f, e ≠ .ledger (.store f)) :
    t = s ∧ Decodable.decode? (α := α) v.payload = none ∧
      e = .ledger (.undecodable v.tag v.id v.sequence) := by
  rw [entry] at met
  split at met
  · cases met
  · rcases Action.bind_cases met with ⟨f, failed, same⟩ | ⟨x, u, _, rest⟩
    · cases same
      exact decode_failed failed undisturbed
    · cases rest

/-- In any store, a change that fails without a failing call has changed nothing, or appended a
version that is no value of the kind. -/
theorem failure_traceless (c : Collection α) (g : Change α)
    (met : (g.perform (Store.answer now) c).outcome s = (.error e, t))
    (undisturbed : ∀ f, e ≠ .ledger (.store f)) :
    t = s ∨ ∃ v, Stranded now c g e s t v := by
  cases g with
  | write fresh x =>
    by_cases own : Entity.tagOf x = c.tag
    · have same : ¬ Entity.tagOf x ≠ c.tag := fun other => other own
      rw [Change.perform, write, if_neg same] at met
      obtain kept | ⟨v, u, accepted, grew, failed⟩ :=
        failed_cases (k := .write fresh (.ofEntity x)) met undisturbed
      · exact .inl kept
      · obtain ⟨rfl, broken, named⟩ := decode_failed failed undisturbed
        exact .inr ⟨v, accepted, grew, broken, named, fun other => other⟩
    · rw [Change.perform, write, if_pos own] at met
      cases met
      exact .inl rfl
  | delete id =>
    obtain kept | ⟨v, u, _, _, failed⟩ := failed_cases (k := .delete id c.tag) met undisturbed
    · exact .inl kept
    · cases failed
  | restore id at_ =>
    obtain kept | ⟨v, u, accepted, grew, failed⟩ :=
      failed_cases (k := .restore id c.tag at_) met undisturbed
    · exact .inl kept
    · obtain ⟨rfl, broken, named⟩ := entry_failed failed undisturbed
      exact .inr ⟨v, accepted, grew, broken, named, fun other => other⟩

/-- A restored payload that is no value of the kind is refused too late. -/
theorem restore_undecodable {c : Collection α} {id : RecordId} {at_ : Instant} {v : Version}
    (logged : Logged log s)
    (accepted : (Ledger.restore (Store.answer now) id c.tag at_).outcome s = (.ok v, t))
    (live : v.payload ≠ tombstone) (broken : Decodable.decode? (α := α) v.payload = none) :
    (restore (Store.answer now) c id at_).outcome s =
      (.error (.ledger (.undecodable v.tag v.id v.sequence)), t) := by
  have longer : Logged (log ++ [v]) t := by
    cases Ledger.Change.changed (c := .restore id c.tag at_) logged accepted nofun with
    | appended _ _ _ _ inserted => exact logged.push inserted
  rw [restore, Action.outcome_bind_ok (Action.outcome_wrap_ok accepted)]
  rcases entry_cases (α := α) longer now v with ⟨_, _, dead | decoded⟩ | ⟨_, _, stopped⟩
  · exact absurd dead live
  · rw [broken] at decoded
    cases decoded
  · exact stopped

/-- The record's first version is a list. Restored as a document it is refused, and is in the
history again. -/
theorem list_refused :
    let s := Ledger.left .empty (Ledger.play Ledger.restoring .empty)
    let tag : Tag := ⟨"app.note", by decide⟩
    ∃ t, (restore (α := Document) (Store.answer .epoch) ⟨tag⟩ default ⟨5, rfl⟩).outcome s =
        (.error (.ledger (.undecodable tag default 4)), t) ∧
      t.versions ≠ s.versions := by
  intro s tag
  have session : Session ((Ledger.play Ledger.restoring .empty).map Turn.ofEvent) s :=
    (Ledger.play_run Ledger.restoring .empty (by decide)).session .nil
  have accepted : (Ledger.restore (Store.answer .epoch) default tag ⟨5, rfl⟩).outcome s =
      (.ok ⟨4, default, tag, "[1]", ⟨8, rfl⟩⟩, grown s .epoch default tag "[1]") := by
    decide +kernel
  have broken : (Document.ofText? "[1]").isNone = true := by decide +kernel
  have longer (r : Store.VersionRow) : s.versions ++ [r] ≠ s.versions := by simp
  exact ⟨_, restore_undecodable (c := ⟨tag⟩) session.logged accepted (by decide)
    (Option.isNone_iff_eq_none.mp broken), longer _⟩

theorem list_stranded :
    let s := Ledger.left .empty (Ledger.play Ledger.restoring .empty)
    let turns := (Ledger.play Ledger.restoring .empty).map Turn.ofEvent
    let c : Collection Document := ⟨⟨"app.note", by decide⟩⟩
    let g : Change Document := .restore default ⟨5, rfl⟩
    ∃ e t v, Session turns s ∧ (g.perform (Store.answer .epoch) c).outcome s = (.error e, t) ∧
      (∀ f, e ≠ .ledger (.store f)) ∧ Stranded .epoch c g e s t v := by
  intro s turns c g
  have run := Ledger.play_run Ledger.restoring .empty (by decide)
  have session : Session turns s := run.session .nil
  obtain ⟨t, failed, changed⟩ := list_refused
  rcases failure_traceless c g failed nofun with same | ⟨v, stranded⟩
  · exact absurd (congrArg Store.versions same) changed
  · exact ⟨_, t, v, session, failed, nofun, stranded⟩

theorem refused_list_stays :
    let s := Ledger.left .empty (Ledger.play Ledger.restoring .empty)
    let turns := (Ledger.play Ledger.restoring .empty).map Turn.ofEvent
    let c : Collection Document := ⟨⟨"app.note", by decide⟩⟩
    let g : Change Document := .restore default ⟨5, rfl⟩
    ∃ e t, Session turns s ∧ (g.perform (Store.answer .epoch) c).outcome s = (.error e, t) ∧
      (∀ f, e ≠ .ledger (.store f)) ∧ ¬ (t.versions = s.versions ∧ t.index = s.index) := by
  intro s turns c g
  have run := Ledger.play_run Ledger.restoring .empty (by decide)
  obtain ⟨t, failed, changed⟩ := list_refused
  exact ⟨_, t, run.session .nil, failed, nofun, fun same => changed same.1⟩

end RecordLedger.Collection
