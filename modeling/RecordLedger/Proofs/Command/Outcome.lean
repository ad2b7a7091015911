import RecordLedger.Command.Run
import RecordLedger.Proofs.Collection.Documents
import RecordLedger.Proofs.Ledger.Supply

/-! What commands do to the store that they work on. A command prints once its work has succeeded
and printing cannot fail, so only its work can leave it half done. -/
namespace RecordLedger.Command

open Ledger (Session Turn Untampered Unlisted)
open Store (Logged)

variable {around : Surroundings} {settings : Settings} {format : Format} {s t : Store}
  {turns : List Turn}

section Printing

variable {ε ε' α β : Type}

/-- Work whose answer is printed in the end. -/
theorem outcome_printed (a : Action α) (print : α → String) (s : Store) :
    (do return print (← a) : Action String).outcome s =
      ((a.outcome s).1.map print, (a.outcome s).2) := by
  rw [Action.outcome_bind]
  generalize a.outcome s = met
  obtain ⟨answer, t⟩ := met
  cases answer <;> rfl

theorem isOk_printed (x : Except ε α) (wrap : ε → ε') (print : α → β) :
    ((x.mapError wrap).map print).isOk = x.isOk := by
  cases x <;> rfl

theorem printed_ok {x : Except ε α} {wrap : ε → ε'} {print : α → β} {out : β}
    (met : (x.mapError wrap).map print = .ok out) : ∃ y, x = .ok y ∧ print y = out := by
  cases x with
  | error e => cases met
  | ok y => exact ⟨y, rfl, Except.ok.inj met⟩

end Printing

def target? (fresh : RecordId) : Command → Option (RecordId × Tag)
  | .write tag _ id => some (id.getD fresh, tag)
  | .delete tag id => some (id, tag)
  | .restore tag id _ => some (id, tag)
  | _ => none

def Reads : Command → Prop
  | .read .. | .history _ | .fetch .. | .reconcile true => True
  | _ => False

def Ordinary : Command → Prop
  | .init _ | .query .. => False
  | _ => True

/-- What a command with the result `r` has made of the two relations: nothing if it failed, and
otherwise what its name says. -/
structure AllOrNothing (fresh : RecordId) (c : Command) (r : Except Failure String)
    (s t : Store) : Prop where
  failed : r.isOk = false → t.versions = s.versions ∧ t.index = s.index
  appended : r.isOk = true → ∀ id tag, c.target? fresh = some (id, tag) →
    ∃ row, row.id = id.text ∧ row.tag = tag.text ∧ t.versions = s.versions ++ [row]
  history : r.isOk = true → c.target? fresh = none → t.versions = s.versions
  read : r.isOk = true → c.Reads → t.versions = s.versions ∧ t.index = s.index

/-- The index has used up its numbers although statements have taken rows away from it. -/
def Spent (turns : List Turn) (t : Store) : Prop :=
  ¬ Untampered turns ∧ t.lastIndex = Word.maxSigned

/-- What a command leaves that fails for want of a number of the index: a write or a restore has
stored its live version and not listed it, and a reconciliation has only added rows. -/
inductive CutShort (fresh : RecordId) : Command → Except Failure String → Store → Store → Prop
  | unlisted {c : Command} {r : Except Failure String} {s t : Store} {id : RecordId} {tag : Tag}
      {row : Store.VersionRow} (failed : r.isOk = false)
      (target : c.target? fresh = some (id, tag)) (other : c ≠ .delete tag id)
      (names : row.id = id.text) (tagged : row.tag = tag.text) (live : row.payload ≠ tombstone)
      (versions : t.versions = s.versions ++ [row]) (index : t.index = s.index) :
      CutShort fresh c r s t
  | repairing {r : Except Failure String} {s t : Store} (failed : r.isOk = false)
      (versions : t.versions = s.versions) (index : s.index <+: t.index) :
      CutShort fresh (.reconcile false) r s t

theorem AllOrNothing.of_same {c : Command} {fresh : RecordId} {r : Except Failure String}
    (quiet : r.isOk = false ∨ c.target? fresh = none) : AllOrNothing fresh c r s s := by
  refine ⟨fun _ => ⟨rfl, rfl⟩, fun ok id tag target => ?_, fun _ _ => rfl, fun _ _ => ⟨rfl, rfl⟩⟩
  rcases quiet with failed | absent
  · rw [failed] at ok
    cases ok
  · rw [absent] at target
    cases target

theorem AllOrNothing.of_appended {c : Command} {fresh id : RecordId} {tag : Tag}
    {r : Except Failure String} {row : Store.VersionRow} (ok : r.isOk = true)
    (target : c.target? fresh = some (id, tag)) (names : row.id = id.text)
    (tagged : row.tag = tag.text) (grown : t.versions = s.versions ++ [row])
    (changes : ¬ c.Reads) : AllOrNothing fresh c r s t := by
  refine ⟨fun failed => ?_, fun _ other otherTag same => ?_, fun _ absent => ?_, fun _ reads => ?_⟩
  · rw [ok] at failed
    cases failed
  · cases target.symm.trans same
    exact ⟨row, names, tagged, grown⟩
  · cases target.symm.trans absent
  · exact absurd reads changes

theorem Spent.of_full (tampered : ¬ Untampered turns) (sound : Store.Sound t)
    (full : Store.next? t.lastIndex = none) : Spent turns t := by
  refine ⟨tampered, Int.le_antisymm sound.index.fits ?_⟩
  unfold Store.next? at full
  split at full
  · cases full
  · omega

/-- A body is refused, or is the document that is written, which can be decoded again. -/
theorem documentOf_cases (tag : Tag) (body : String) (id : Option RecordId) :
    (∃ f, documentOf tag body id = .error f) ∨
    ∃ d, documentOf tag body id = .ok d ∧ d.tag = tag ∧ d.node.id = id ∧
      (Decodable.decode? (α := Document) d.payload).isSome = true := by
  have readable {ms : Json.Members} (read : Json.ofText? body = some (.object ms)) :
      (Document.ofText? (Json.object ms).compact).isSome = true := by
    obtain ⟨ns, again⟩ := Json.ofText?_compact_object (Json.ofText?_regular read)
    rw [Document.ofText?, again]
    rfl
  unfold documentOf
  cases read : Json.ofText? body with
  | none => exact .inl ⟨_, rfl⟩
  | some v =>
    cases v with
    | object ms => cases id <;> exact .inr ⟨_, rfl, rfl, rfl, readable read⟩
    | _ => exact .inl ⟨_, rfl⟩

theorem perform_write {tag : Tag} {body : String} {id : Option RecordId} {d : Document}
    (made : documentOf tag body id = .ok d) (s : Store) :
    (perform around settings format (.write tag body id)).outcome s =
      let written := (Collection.write (perform.b around) around.fresh ⟨tag⟩ d).outcome s
      ((written.1.mapError .collection).map fun d => inFormat format d.toJson (writtenText d),
        written.2) := by
  rw [perform, made, Action.outcome_bind]
  exact outcome_printed (onCollection (Collection.write (perform.b around) around.fresh _ d))
    (fun d => inFormat format d.toJson (writtenText d)) s

theorem CutShort.of_unlisted {change : Ledger.Change} {c : Command} {fresh : RecordId}
    {r : Except Failure String} (failed : r.isOk = false) (unlisted : Unlisted change s t)
    (target : c.target? fresh = some (change.id, change.tag))
    (other : c ≠ .delete change.tag change.id) : CutShort fresh c r s t := by
  obtain ⟨row, names, tagged, _, live, versions⟩ := unlisted.versions
  exact .unlisted failed target other names tagged live versions unlisted.index

section Changes

variable (session : Session turns s) (early : ∀ r ∈ s.versions, r.timestamp < Word.maxSigned)
include session early

theorem change_settles (change : Ledger.Change) (now : Instant) {c : Command} {fresh : RecordId}
    {answer : Except Ledger.Error Version} {r : Except Failure String}
    (met : (change.perform (Store.answer now)).outcome s = (answer, t))
    (printed : r.isOk = answer.isOk) (target : c.target? fresh = some (change.id, change.tag))
    (changes : ¬ c.Reads) :
    AllOrNothing fresh c r s t ∨ (r.isOk = false ∧ Unlisted change s t) ∧ Spent turns t := by
  cases answer with
  | error e =>
    rcases Ledger.Change.error_cases early met with rfl | unlisted
    · exact .inl (.of_same (.inl printed))
    · have sound : Store.Sound t := by
        have kept := Ledger.keeps_change (b := Store.answer now) (P := Store.Sound)
          (fun c ordinary s sound => (Store.answer_effect now c ordinary s).sound sound)
          change s session.backed.sound
        rwa [met] at kept
      refine .inr ⟨⟨printed, unlisted⟩,
        .of_full (fun untampered => ?_) sound (unlisted.last ▸ unlisted.full)⟩
      have lag := session.lastIndex_le untampered
      have free := Store.next?_eq_some_iff.mpr ⟨Int.lt_of_le_of_lt lag unlisted.numbers, rfl⟩
      rw [unlisted.full] at free
      cases free
  | ok v =>
    rcases change.answer_cases met nofun with ⟨⟨_, other⟩, _⟩ | ⟨_, _, _, _, _, _, appended⟩
    · cases other
    · exact .inl (.of_appended printed target rfl rfl appended.versions changes)

theorem delete_settles (tag : Tag) (id : RecordId) {r : Except Failure String}
    (met : (perform around settings format (.delete tag id)).outcome s = (r, t)) :
    AllOrNothing around.fresh (.delete tag id) r s t := by
  rw [perform, outcome_printed, Action.outcome_wrap] at met
  cases met
  refine (change_settles (c := .delete tag id) session early (.delete id tag) around.now rfl
    (isOk_printed ..) rfl nofun).resolve_right ?_
  rintro ⟨⟨_, unlisted⟩, _⟩
  exact unlisted.of_delete

theorem restore_settles (tag : Tag) (id : RecordId) (at_ : Instant) {r : Except Failure String}
    (met : (perform around settings format (.restore tag id at_)).outcome s = (r, t)) :
    AllOrNothing around.fresh (.restore tag id at_) r s t ∨
      CutShort around.fresh (.restore tag id at_) r s t ∧ Spent turns t := by
  rw [perform, outcome_printed, Action.outcome_wrap] at met
  cases met
  refine (change_settles (c := .restore tag id at_) session early (.restore id tag at_) around.now
    rfl (isOk_printed ..) rfl nofun).imp_right (And.imp_left ?_)
  rintro ⟨failed, unlisted⟩
  exact .of_unlisted failed unlisted rfl nofun

theorem write_settles (tag : Tag) (body : String) (id : Option RecordId)
    {r : Except Failure String}
    (met : (perform around settings format (.write tag body id)).outcome s = (r, t)) :
    AllOrNothing around.fresh (.write tag body id) r s t ∨
      CutShort around.fresh (.write tag body id) r s t ∧ Spent turns t := by
  rcases documentOf_cases tag body id with ⟨f, refused⟩ | ⟨d, made, rfl, rfl, readable⟩
  · rw [perform, refused] at met
    cases met
    exact .inl (.of_same (.inl rfl))
  · obtain ⟨w, written, same⟩ := Collection.write_decodes around.now around.fresh ⟨d.tag⟩
      session.logged rfl rfl readable rfl
    rw [perform_write made, show perform.b around = Store.answer around.now from rfl,
      written] at met
    cases met
    refine (change_settles session early (.write around.fresh (.ofEntity d)) around.now rfl
      ((isOk_printed ..).trans same) rfl id).imp_right (And.imp_left ?_)
    rintro ⟨failed, unlisted⟩
    exact .of_unlisted failed unlisted rfl nofun

end Changes

theorem perform_reads (c : Command) (reads : c.Reads) (s : Store) :
    ((perform around settings format c).outcome s).2 = s := by
  have looks (o : Ledger.Operation) (only : o.Reads) :=
    Action.frame_wrap Failure.ledger (Ledger.keeps_reading around.now o only s)
  cases c with
  | read tag id =>
    refine Action.frame_bind (looks (.read id tag) trivial) fun v => ?_
    exact Action.frame_bind (looks (.scan (α := Document) v) trivial) fun _ => rfl
  | history id => exact Action.frame_bind (looks (.history id) trivial) fun _ => rfl
  | fetch tag first before =>
    refine Action.frame_bind (Action.frame_wrap _ ?_) fun _ => rfl
    exact Collection.fetch_frame around.now ⟨tag⟩ _ before s
  | reconcile dryRun =>
    cases dryRun with
    | false => exact reads.elim
    | true => exact Action.frame_bind (looks .audit trivial) fun _ => rfl
  | _ => exact reads.elim

theorem reconcile_settles (session : Session turns s) {r : Except Failure String}
    (met : (perform around settings format (.reconcile false)).outcome s = (r, t)) :
    AllOrNothing around.fresh (.reconcile false) r s t ∨
      CutShort around.fresh (.reconcile false) r s t ∧ Spent turns t := by
  let after : Turn := .of around.now (.operation .reconcile) s
  have repairing : ∀ c, Ledger.Operation.reconcile ≠ .change c := fun _ => nofun
  have follows : after.Follows s := Turn.of_operation_follows around.now repairing s
  have history : after.after.versions = s.versions :=
    (Ledger.Request.history_kept follows.met fun c same => by cases same).1
  have sound : Store.Sound after.after := (session.snoc follows).backed.sound
  rw [perform, outcome_printed, Action.outcome_wrap] at met
  cases met
  cases answer : ((Ledger.reconcile (Store.answer around.now)).outcome s).1 with
  | ok report =>
    refine .inl ⟨fun failed => ?_, fun _ _ _ => nofun, fun _ _ => history, fun _ => False.elim⟩
    rw [isOk_printed] at failed
    cases (congrArg Except.isOk answer).symm.trans failed
  | error e =>
    obtain ⟨index, full⟩ := Ledger.reconcile_error session.backed.sound (Prod.ext answer rfl)
    refine .inr ⟨.repairing ?_ history index, .of_full (fun untampered => ?_) sound full⟩
    · rw [isOk_printed]
      exact congrArg Except.isOk answer
    have steady := (session.chronicle untampered).steady
    rw [Ledger.reconcile_indexed around.now steady.sound steady.consistent.indexed] at answer
    cases answer

/-- A command that sets up nothing and runs no statement does all or nothing, as long as statements
before it have taken no rows away or the index has numbers left. -/
theorem perform_settles (session : Session turns s)
    (early : ∀ r ∈ s.versions, r.timestamp < Word.maxSigned) {c : Command} (ordinary : c.Ordinary)
    {r : Except Failure String}
    (met : (perform around settings format c).outcome s = (r, t)) :
    AllOrNothing around.fresh c r s t ∨ CutShort around.fresh c r s t ∧ Spent turns t := by
  have looked (reads : c.Reads) (absent : c.target? around.fresh = none) :
      AllOrNothing around.fresh c r s t := by
    have same : ((perform around settings format c).outcome s).2 = s := perform_reads c reads s
    rw [met] at same
    cases same
    exact .of_same (.inr absent)
  cases c with
  | init => exact ordinary.elim
  | query => exact ordinary.elim
  | write tag body id => exact write_settles session early tag body id met
  | delete tag id => exact .inl (delete_settles session early tag id met)
  | restore tag id at_ => exact restore_settles session early tag id at_ met
  | read => exact .inl (looked trivial rfl)
  | history => exact .inl (looked trivial rfl)
  | fetch => exact .inl (looked trivial rfl)
  | reconcile dryRun =>
    cases dryRun with
    | true => exact .inl (looked trivial rfl)
    | false => exact reconcile_settles session met

end RecordLedger.Command
