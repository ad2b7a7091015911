import RecordLedger.Proofs.Ledger.Isolation
import RecordLedger.Proofs.Ledger.Onward
import RecordLedger.Proofs.Ledger.Supply
import RecordLedger.Proofs.Text.Octets

/-! Rows that a ledger has stored are never corrupt to it. Every row was made from a version with an
id, a tag, a number and a timestamp, and its columns are read back as these, so that reading fails
on no store that operations have led to. An append fails when its row is larger than the database
takes or there are too many already, and then it changes nothing. -/
namespace RecordLedger.Ledger

open Store (Logged)

/-- The operation asks for no more records than a statement takes parameters. -/
def Operation.Few (s : Store) : Operation → Prop
  | .fetch tag first before => first ≤ Word.maxUnsigned ∧
    min first (rowsBehind s tag before).length ≤ Store.maxParameters
  | .fetchIn ids => ids.length ≤ Store.maxParameters
  | _ => True

/-- Operations that were performed one after the other on a store that was empty, with whatever
outcomes. -/
inductive Played : List Event → Store → Prop
  | nil : Played [] .empty
  | snoc {events : List Event} {s : Store} (played : Played events s) (now : Instant)
      (o : Operation) (few : o.Few s) :
      Played (events ++ [Event.of now o s]) (Event.of now o s).after

variable {s : Store} {past : List Version} {now : Instant} {events : List Event}

def Undisturbed {α : Type} (r : Except Error α) : Prop := ∀ f, r ≠ .error (.store f)

theorem fetch_undisturbed (steady : Steady s) (now : Instant) {tag : Tag} {first : Nat}
    {before : Option RecordId} (few : (Operation.fetch tag first before).Few s) :
    Undisturbed ((fetch (Store.answer now) tag first before).outcome s).1 := by
  have formed := steady.sound.formed
  rcases Nat.eq_zero_or_pos first with rfl | positive
  · rintro f ⟨⟩
  · rcases start_cases formed tag before with ⟨bound, start⟩ | ⟨anchor, rfl, absent⟩
    · have short : ((s.rowsBelow tag bound).take first).length ≤ Store.maxParameters := by
        by_cases filled : s.rowsBelow tag bound = []
        · rw [filled, List.take_nil]
          exact Nat.zero_le _
        · rw [List.length_take, ← (start.rest formed filled).2]
          exact few.2
      obtain ⟨page, ids, answered, -⟩ :=
        fetch_answer now formed (fun _ _ => steady.readable) start positive few.1 short
      rw [answered]
      rintro f ⟨⟩
    · rw [fetch_unanchored now positive absent]
      dsimp only
      split
      · rintro f ⟨⟩
      · rintro f ⟨⟩

theorem fetchIn_undisturbed (steady : Steady s) (now : Instant) {ids : List RecordId}
    (few : ids.length ≤ Store.maxParameters) :
    Undisturbed ((fetchIn (Store.answer now) ids).outcome s).1 := by
  have formed := steady.sound.formed
  obtain ⟨vs, answered, -⟩ := latestInOrder_ok now formed.keyed formed.words ids
    (fun _ _ => steady.readable) few
  rw [fetchIn, Action.outcome_bind_ok answered]
  rintro f ⟨⟩

theorem scan_undisturbed {α : Type} [Decodable α] (logged : Logged past s) (now : Instant)
    (v : Version) : Undisturbed ((scan (α := α) (Store.answer now) v).outcome s).1 := by
  have answered : Store.answer now (.earliestTimestamp v.id) s = (.ok _, s) :=
    congrArg (·, s) (logged.earliestTimestamp_eq v.id)
  rw [scan, Action.outcome_call_bind answered]
  split
  · rintro f ⟨⟩
  · rintro f ⟨⟩

theorem Operation.undisturbed {o : Operation} (steady : Steady s) (logged : Logged past s)
    (now : Instant) (few : o.Few s) (other : ∀ c, o ≠ .change c) :
    Undisturbed ((o.perform (Store.answer now)).outcome s).1 := by
  cases o with
  | change c => exact absurd rfl (other c)
  | read id tag =>
    rw [Operation.perform, read_found logged]
    cases (entries past id).reverse.find? (·.tag = tag) with
    | none => rintro f ⟨⟩
    | some v => rintro f ⟨⟩
  | history id =>
    rw [Operation.perform, history_logged logged]
    rintro f ⟨⟩
  | fetch tag first before => exact fetch_undisturbed steady now few
  | fetchIn ids => exact fetchIn_undisturbed steady now few
  | scan v => exact scan_undisturbed logged now v
  | audit =>
    rw [Operation.perform, audit_indexed now steady.sound steady.consistent.indexed]
    rintro f ⟨⟩
  | reconcile =>
    rw [Operation.perform, reconcile_indexed now steady.sound steady.consistent.indexed]
    rintro f ⟨⟩

theorem Change.due_undisturbed (past : List Version) (c : Change) : Undisturbed (c.due past) := by
  cases c with
  | write fresh draft =>
    simp only [Change.due]
    split
    · cases draft.payload <;> rintro f ⟨⟩
    · split
      · cases draft.payload <;> rintro f ⟨⟩
      · rintro f ⟨⟩
  | delete id tag =>
    simp only [Change.due]
    split
    · rintro f ⟨⟩
    · rintro f ⟨⟩
  | restore id tag at_ =>
    simp only [Change.due]
    split
    · rintro f ⟨⟩
    · rintro f ⟨⟩

theorem append_untaken (numbers : s.lastVersion < Word.maxSigned) {id : RecordId} {tag : Tag}
    {payload : String}
    (untaken : s.takes (s.newRow now id tag payload (s.lastVersion + 1)) = false) :
    (append (Store.answer now) id tag payload).outcome s = (.error (.store .statement), s) := by
  have free := Store.next?_eq_some_iff.mpr ⟨numbers, rfl⟩
  rw [Store.newRow] at untaken
  have refused : Store.answer now (.insertVersion id tag payload) s = (.error .statement, s) := by
    simp only [Store.answer, Store.insertVersion, free, untaken, Bool.false_eq_true, if_false]
  rw [append, Action.outcome_bind, Action.outcome_call, refused]
  rfl

/-- A store as operations leave it, with the versions that were appended so far. -/
structure Lasting (past : List Version) (s : Store) : Prop where
  steady : Steady s
  logged : Logged past s
  frugal : Frugal s

theorem empty_lasting : Lasting [] .empty :=
  ⟨⟨.empty, empty_consistent⟩, Store.empty_logged, empty_frugal⟩

def Untaken (past : List Version) (s : Store) (now : Instant) : Operation → Prop
  | .change c => ∃ payload, c.due past = .ok payload ∧
      s.takes (s.newRow now c.id c.tag payload (s.lastVersion + 1)) = false
  | _ => False

theorem Untaken.change {o : Operation} (untaken : Untaken past s now o) : ∃ c, o = .change c := by
  cases o with
  | change c => exact ⟨c, rfl⟩
  | _ => exact untaken.elim

/-- What the store makes of an operation: it fails none of its calls, or it refuses an append and
stays as it was. -/
structure Answers (past : List Version) (s : Store) (now : Instant) (o : Operation) : Prop where
  undisturbed : ¬ Untaken past s now o → Undisturbed ((o.perform (Store.answer now)).outcome s).1
  refused : Untaken past s now o →
    (o.perform (Store.answer now)).outcome s = (.error (.store .statement), s)

namespace Lasting

variable (lasting : Lasting past s) (early : ∀ r ∈ s.versions, r.timestamp < Word.maxSigned)
include lasting early

theorem change_answers (now : Instant) (c : Change) : Answers past s now (.change c) := by
  have undisturbed := c.due_undisturbed past
  have performed := c.perform_logged lasting.logged now
  cases due : c.due past with
  | error e =>
    rw [due] at undisturbed performed
    refine ⟨fun _ => ?_, fun untaken => ?_⟩
    · rw [Operation.perform, performed]
      exact fun f failed => undisturbed f (congrArg Except.error (Except.error.inj failed))
    · obtain ⟨_, appends, _⟩ := untaken
      cases due.symm.trans appends
  | ok payload =>
    rw [due] at performed
    refine ⟨fun taken => ?_, fun untaken => ?_⟩
    · have fits : s.takes (s.newRow now c.id c.tag payload (s.lastVersion + 1)) = true :=
        Bool.of_not_eq_false fun none_made => taken ⟨payload, due, none_made⟩
      have room : Room s now c.id c.tag payload :=
        ⟨lasting.frugal.numbers, fits, fun _ => lasting.frugal.places,
          Store.stamp_fits now fun r stored _ => early r stored⟩
      rw [Operation.perform, performed]
      dsimp only
      rw [append_room room]
      rintro f ⟨⟩
    · obtain ⟨other, appends, untaken⟩ := untaken
      cases due.symm.trans appends
      exact performed.trans (append_untaken lasting.frugal.numbers untaken)

theorem answers (now : Instant) {o : Operation} (few : o.Few s) : Answers past s now o := by
  by_cases change : ∃ c, o = .change c
  · obtain ⟨c, rfl⟩ := change
    exact lasting.change_answers early now c
  · have other : ∀ c, o ≠ .change c := fun c same => change ⟨c, same⟩
    exact ⟨fun _ => Operation.undisturbed lasting.steady lasting.logged now few other,
      fun untaken => absurd untaken.change change⟩

theorem step (now : Instant) {o : Operation} (few : o.Few s) :
    Lasting (past ++ (Turn.ofEvent (Event.of now o s)).appended?.toList)
      (Event.of now o s).after := by
  have answers := lasting.answers early now few
  by_cases untaken : Untaken past s now o
  · have refused := answers.refused untaken
    have after : (Event.of now o s).after = s := congrArg Prod.snd refused
    have nothing : (Turn.ofEvent (Event.of now o s)).appended? = none := by
      obtain ⟨c, rfl⟩ := untaken.change
      have outcome := congrArg Prod.fst refused
      simp only [Turn.ofEvent, Event.of, outcome]
      rfl
    rw [after, nothing, Option.toList_none, List.append_nil]
    exact lasting
  · have step : Advance s (Event.of now o s) := ⟨rfl, answers.undisturbed untaken⟩
    exact ⟨step.steady lasting.steady, step.follows.logged lasting.logged,
      step.frugal lasting.steady lasting.frugal⟩

end Lasting

theorem Event.of_later (now : Instant) (o : Operation) (s : Store) :
    Store.Later s (Event.of now o s).after :=
  keeps_operation (b := Store.answer now) (P := Store.Later s)
    (fun c ordinary u later => later.trans (Store.answer_effect now c ordinary u).later)
    o s (.refl s)

namespace Played

theorem lasting (played : Played events s)
    (early : ∀ r ∈ s.versions, r.timestamp < Word.maxSigned) :
    Lasting (log (events.map Turn.ofEvent)) s := by
  induction played with
  | nil => exact empty_lasting
  | @snoc events s played now o few ih =>
    have before : ∀ r ∈ s.versions, r.timestamp < Word.maxSigned := fun r stored =>
      early r ((Event.of_later now o s).history r stored)
    rw [List.map_append, List.map_singleton, log_snoc]
    exact (ih before).step before now few

/-- The store has failed no operation but those whose version it did not take. -/
theorem failures (played : Played events s)
    (early : ∀ r ∈ s.versions, r.timestamp < Word.maxSigned) :
    ∀ e ∈ events, ∀ f, e.outcome = .error (.store f) → f = .statement ∧
      ∃ before u, Played before u ∧
        Untaken (log (before.map Turn.ofEvent)) u e.now e.operation ∧ e.after = u := by
  induction played with
  | nil => exact fun e member => absurd member List.not_mem_nil
  | @snoc events s played now o few ih =>
    have before : ∀ r ∈ s.versions, r.timestamp < Word.maxSigned := fun r stored =>
      early r ((Event.of_later now o s).history r stored)
    intro e member f failed
    rcases List.mem_append.mp member with old | new
    · exact ih before e old f failed
    · obtain rfl := List.mem_singleton.mp new
      have answers := (played.lasting before).answers before now few
      by_cases untaken : Untaken (log (events.map Turn.ofEvent)) s now o
      · have refused := answers.refused untaken
        have outcome : (Event.of now o s).outcome = .error (.store .statement) :=
          congrArg Prod.fst refused
        rw [outcome] at failed
        cases failed
        exact ⟨rfl, events, s, played, untaken, congrArg Prod.snd refused⟩
      · exact absurd failed (answers.undisturbed untaken f)

end Played

structure ReadBack (past : List Version) (s : Store) : Prop where
  versions : s.versions = past.map Version.row
  numbers : ∀ v ∈ past, v.row.sequence = v.sequence
  decoded : Store.readVersions s.versions = .ok past
  index : ∀ row ∈ s.index, ∃ v ∈ past, row.id = v.id.text ∧ row.tag = v.tag.text ∧
    row.decode = .ok ⟨Word.unsigned row.sequence, v.id, v.tag⟩ ∧
    (Word.unsigned row.sequence : Int) = row.sequence
  count : s.lastVersion = past.length

theorem Lasting.count (lasting : Lasting past s) : s.lastVersion = past.length := by
  rw [lasting.frugal.versions, lasting.logged.rows, List.length_map]

theorem Lasting.readBack (lasting : Lasting past s) : ReadBack past s := by
  have logged := lasting.logged
  refine ⟨logged.rows, fun v member => Store.row_sequence (logged.words v member), ?_,
    fun row stored => ?_, lasting.count⟩
  · rw [logged.rows]
    exact Store.readVersions_rows fun v member => logged.unsigned member
  · obtain ⟨r, latest, -, tagged⟩ := lasting.steady.consistent.row_latest stored
    obtain ⟨v, member, rfl⟩ := logged.mem_versions.mp latest.stored
    obtain ⟨lower, -, upper⟩ := lasting.steady.sound.index_bounds stored
    exact ⟨v, member, latest.names.symm, tagged,
      Store.IndexRow.decode_ok latest.names tagged.symm,
      Word.unsigned_of_nonneg (by omega) upper⟩

theorem write_oversized {payload : String} {tag : Tag}
    (long : Store.maxBytes < payload.utf8ByteSize) (now : Instant) (id : RecordId) :
    let e := Event.of now (.change (.write id ⟨none, tag, .ok payload⟩)) .empty
    Played [e] .empty ∧ e.outcome = .error (.store .statement) := by
  intro e
  let o : Operation := .change (.write id ⟨none, tag, .ok payload⟩)
  have few : o.Few .empty := trivial
  have untaken : Untaken [] .empty now o := by
    refine ⟨payload, rfl, ?_⟩
    rw [Bool.eq_false_iff, ne_eq, Store.takes_iff]
    simp only [Store.newRow, Store.VersionRow.bytes, Store.textBytes]
    omega
  have early : ∀ r ∈ Store.empty.versions, r.timestamp < Word.maxSigned :=
    fun _ stored => absurd stored List.not_mem_nil
  have refused := (empty_lasting.answers early now few).refused untaken
  have after : e.after = .empty := congrArg Prod.snd refused
  exact ⟨after ▸ Played.nil.snoc now o few, congrArg Prod.fst refused⟩

end RecordLedger.Ledger
