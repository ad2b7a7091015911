import RecordLedger.Proofs.Store.Growth
import RecordLedger.Proofs.Store.Log

/-! What a store promises its callers, over all calls but ad hoc statements and at any readings of
the clock: versions are numbered in the order of their insertion, the timestamps of an id increase,
the history is never changed, and an index row never gets a number that was in use before. -/
namespace RecordLedger.Store

structure Exchange where
  now : Instant
  call : Call
  answer : Except Error call.Answer
  after : Store

namespace Exchange

def of (now : Instant) (c : Call) (s : Store) : Exchange :=
  ⟨now, c, (Store.answer now c s).1, (Store.answer now c s).2⟩

structure Meets (s : Store) (e : Exchange) : Prop where
  ordinary : e.call.method ≠ .query
  met : Store.answer e.now e.call s = (e.answer, e.after)

theorem Meets.of (now : Instant) {c : Call} (ordinary : c.method ≠ .query) (s : Store) :
    (Exchange.of now c s).Meets s := ⟨ordinary, rfl⟩

def inserted? : Exchange → Option Version
  | ⟨_, .insertVersion .., .ok v, _⟩ => some v
  | _ => none

end Exchange

inductive Calls : List Exchange → Store → Prop
  | nil : Calls [] .empty
  | snoc (calls : Calls past s) (met : e.Meets s) : Calls (past ++ [e]) e.after

def inserted (past : List Exchange) : List Version := past.filterMap Exchange.inserted?

theorem inserted_snoc (past : List Exchange) (e : Exchange) :
    inserted (past ++ [e]) = inserted past ++ e.inserted?.toList := by
  rw [inserted, List.filterMap_append]
  cases found : e.inserted? <;> simp [found, inserted]

def Early (s : Store) : Prop := ∀ r ∈ s.versions, r.timestamp < Word.maxSigned

instance (s : Store) : Decidable (Early s) :=
  inferInstanceAs (Decidable (∀ r ∈ s.versions, r.timestamp < Word.maxSigned))

variable {s : Store} {past : List Exchange} {e p : Exchange} {log : List Version} {v : Version}

theorem Exchange.Meets.effect (met : e.Meets s) : Effect e.now s e.after := by
  have effect := answer_effect e.now e.call met.ordinary s
  rwa [met.met] at effect

theorem Exchange.Meets.early (met : e.Meets s) (early : Early e.after) : Early s :=
  fun r stored => early r (met.effect.rows_kept.subset stored)

/-- A call inserts the version that it answers or leaves the history alone. While the timestamps are
early, no row is left behind by an insertion that fails. -/
theorem Exchange.Meets.cases (met : e.Meets s) (start : 0 ≤ s.lastVersion) (early : Early s) :
    (∃ v, e.inserted? = some v ∧ Inserted e.now s v e.after) ∨
    (e.inserted? = none ∧ e.after.versions = s.versions ∧
      e.after.lastVersion = s.lastVersion) := by
  obtain ⟨now, call, answer, after⟩ := e
  have made := met.met
  have frame := answer_history now call (s := s)
  rw [made] at frame
  cases call with
  | insertVersion id tag payload =>
    cases answer with
    | ok v => exact .inl ⟨v, rfl, (insertVersion_inserted start made).1⟩
    | error f =>
      obtain rfl := insertVersion_error (fun r stored _ => early r stored) made
      exact .inr ⟨rfl, rfl, rfl⟩
  | query => exact absurd rfl met.ordinary
  | _ => exact .inr ⟨rfl, frame nofun nofun⟩

theorem Exchange.Meets.logged (met : e.Meets s) (logged : Logged log s) (early : Early s) :
    Logged (log ++ e.inserted?.toList) e.after := by
  rcases met.cases logged.numbered.start early with ⟨v, answered, made⟩ | ⟨nothing, same, last⟩
  · rw [answered]
    exact logged.push made
  · rw [nothing, Option.toList_none, List.append_nil]
    exact logged.of_history_eq same last

/-- An insertion succeeds while there are numbers and the database takes the row. -/
theorem Exchange.Meets.accepted {id : RecordId} {tag : Tag} {payload : String} (met : e.Meets s)
    (start : 0 ≤ s.lastVersion) (early : Early s) (asked : e.call = .insertVersion id tag payload)
    (free : s.lastVersion < Word.maxSigned)
    (taken : s.takes (s.newRow e.now id tag payload (s.lastVersion + 1)) = true) :
    ∃ v, e.inserted? = some v ∧ v.id = id ∧ v.tag = tag ∧ v.payload = payload := by
  obtain ⟨now, call, answer, after⟩ := e
  subst asked
  have made : s.insertVersion now id tag payload = (answer, after) := met.met
  cases answer with
  | ok v => exact ⟨v, rfl, (insertVersion_inserted start made).2⟩
  | error f =>
    have fits := stamp_fits now fun r stored (_ : r.id = id.text) => early r stored
    have read : readTimestamp (s.stamp id.text now) = .ok ⟨_, fits⟩ :=
      (readTimestamp_eq_ok_iff _ _).mpr rfl
    rw [newRow] at taken
    simp only [insertVersion, next?_eq_some_iff.mpr ⟨free, rfl⟩, taken, if_true, read] at made
    cases made

theorem Calls.reached (calls : Calls past s) : Reached s := by
  induction calls with
  | nil => exact .empty
  | @snoc _ _ e _ met ih =>
    have reached := ih.call e.now e.call met.ordinary
    rwa [met.met] at reached

theorem Calls.logged (calls : Calls past s) (early : Early s) : Logged (inserted past) s := by
  induction calls with
  | nil => exact empty_logged
  | snoc calls met ih =>
    have before := met.early early
    rw [inserted_snoc]
    exact met.logged (ih before) before

theorem Calls.sound_of_mem (calls : Calls past s) (member : p ∈ past) : Sound p.after := by
  induction calls with
  | nil => cases member
  | snoc calls met ih =>
    rcases List.mem_append.mp member with old | new
    · exact ih old
    · rw [List.mem_singleton.mp new]
      exact (calls.snoc met).reached.sound

theorem Calls.rows_kept (calls : Calls past s) (member : p ∈ past) :
    p.after.versions <+: s.versions := by
  induction calls with
  | nil => cases member
  | snoc calls met ih =>
    rcases List.mem_append.mp member with old | new
    · exact (ih old).trans met.effect.rows_kept
    · obtain rfl := List.mem_singleton.mp new
      exact List.prefix_refl _

theorem Calls.last_le (calls : Calls past s) (member : p ∈ past) :
    p.after.lastIndex ≤ s.lastIndex := by
  induction calls with
  | nil => cases member
  | snoc calls met ih =>
    rcases List.mem_append.mp member with old | new
    · exact Int.le_trans (ih old) met.effect.later.last
    · obtain rfl := List.mem_singleton.mp new
      exact Int.le_refl _

/-- The promises about a call in `s` after the calls `past`. -/
structure Contract (past : List Exchange) (s : Store) (e : Exchange) : Prop where
  /-- The history is what insertions answered so far. -/
  history : s.versions = (inserted past).map Version.row
  /-- A call adds the version that it answers and nothing else. -/
  grown : e.after.versions = s.versions ++ e.inserted?.toList.map Version.row
  accepted : ∀ id tag payload, e.call = .insertVersion id tag payload →
    s.lastVersion < Word.maxSigned →
    s.takes (s.newRow e.now id tag payload (s.lastVersion + 1)) = true →
    ∃ v, e.inserted? = some v ∧ v.id = id ∧ v.tag = tag ∧ v.payload = payload
  kept : ∀ p ∈ past, p.after.versions <+: e.after.versions
  number : ∀ v, e.inserted? = some v → ∀ u ∈ inserted past, u.sequence < v.sequence
  clock : ∀ v, e.inserted? = some v → e.now.micros ≤ v.timestamp.micros
  later : ∀ v, e.inserted? = some v → ∀ u ∈ inserted past, u.id = v.id →
    u.timestamp.micros < v.timestamp.micros
  /-- A clock that is ahead of the id's versions is taken as it is. -/
  ahead : ∀ v, e.inserted? = some v →
    (∀ u ∈ inserted past, u.id = v.id → u.timestamp.micros < e.now.micros) → v.timestamp = e.now
  single : e.after.index.Pairwise fun a b => a.id ≠ b.id
  /-- A new index row has a number above those of all rows there ever were. -/
  fresh : ∀ row ∈ e.after.index, row ∉ s.index →
    ∀ p ∈ past, ∀ old ∈ p.after.index, old.sequence < row.sequence

/-- Every call keeps the contract, whatever calls took place before it and whatever the clock
showed, as long as the timestamps stored so far are before the last instant. -/
theorem calls_keep_contract (calls : Calls past s) (early : Early s) (met : e.Meets s) :
    Contract past s e := by
  have logged := calls.logged early
  have start := logged.numbered.start
  have pushed := met.logged logged early
  have made : ∀ v, e.inserted? = some v → Inserted e.now s v e.after := by
    intro v answered
    rcases met.cases start early with ⟨w, same, made⟩ | ⟨nothing, _⟩
    · rw [answered] at same
      exact Option.some.inj same ▸ made
    · rw [answered] at nothing
      cases nothing
  refine ⟨logged.rows, ?_, fun id tag payload => met.accepted start early, ?_, ?_, ?_, ?_, ?_,
    met.effect.sound calls.reached.sound |>.single, ?_⟩
  · rw [pushed.rows, List.map_append, logged.rows]
  · exact fun p member => (calls.rows_kept member).trans met.effect.rows_kept
  · intro v answered u old
    have above := (made v answered).above logged.numbered u.row (logged.row_mem old)
    rw [row_sequence (logged.words u old)] at above
    exact Int.ofNat_lt.mp above
  · intro v answered
    rw [← (made v answered).stamped]
    exact le_stamp e.now
  · intro v answered u old names
    exact (made v answered).later u.row (logged.row_mem old) (congrArg RecordId.text names)
  · intro v answered ahead
    apply Instant.micros_injective
    rw [← (made v answered).stamped]
    refine stamp_eq e.now fun r stored names => ?_
    obtain ⟨u, old, rfl⟩ := logged.mem_versions.mp stored
    exact ahead u old (RecordId.text_injective _ _ names)
  · intro row listed new p member old stored
    have used := ((calls.sound_of_mem member).index_bounds stored).2.1
    have last := calls.last_le member
    have beyond := (met.effect.later.fresh row listed).resolve_left new
    omega

/-- A record is inserted, indexed and unindexed, and inserted again after the clock was set back. -/
theorem set_back_clock_keeps_contract :
    let tag : Tag := ⟨"app.note", by decide⟩
    let a := Exchange.of ⟨5, rfl⟩ (.insertVersion default tag "[1]") .empty
    let b := Exchange.of ⟨4, rfl⟩ (.upsertIndex default tag) a.after
    let c := Exchange.of ⟨4, rfl⟩ (.removeIndex default) b.after
    let e := Exchange.of ⟨3, rfl⟩ (.insertVersion default tag "[2]") c.after
    e.inserted? = some ⟨2, default, tag, "[2]", ⟨6, rfl⟩⟩ ∧
    Calls [a, b, c] c.after ∧ Early c.after ∧ e.Meets c.after ∧ Contract [a, b, c] c.after e := by
  intro tag a b c e
  have calls : Calls [a, b, c] c.after :=
    ((Calls.nil.snoc (.of ⟨5, rfl⟩ (by decide) .empty)).snoc (.of ⟨4, rfl⟩ (by decide) a.after)).snoc
      (.of ⟨4, rfl⟩ (by decide) b.after)
  have early : Early c.after := by decide +kernel
  have met : e.Meets c.after := .of ⟨3, rfl⟩ (by decide) c.after
  exact ⟨by decide +kernel, calls, early, met, calls_keep_contract calls early met⟩

end RecordLedger.Store
