import RecordLedger.Proofs.Ledger.History
import RecordLedger.Proofs.Ledger.Statement

/-! Sessions: everything a ledger can be asked, ad hoc statements included, in any order and at any
readings of the clock. Statements may be answered in any way and may take rows of the index away,
but are to leave the history and the numbers alone. Then changes alone touch the history, and the
versions that changes have answered are the log that all readers show. -/
namespace RecordLedger

namespace Store

/-- `t` has fewer rows in its index, and else it is `s`. -/
def Trimmed (s t : Store) : Prop :=
  ∃ kept : IndexRow → Bool, t = { s with index := s.index.filter kept }

theorem Trimmed.eq {s t : Store} (trimmed : s.Trimmed t) (same : t.index = s.index) : t = s := by
  obtain ⟨kept, rfl⟩ := trimmed
  have same : s.index.filter kept = s.index := same
  rw [same]

end Store

namespace Ledger

open Store (Logged)

inductive Request : Type 1
  | operation (o : Operation)
  | query (sql : String) (args : List Json)
  | queryOne (sql : String) (args : List Json)

abbrev Request.Answer : Request → Type
  | .operation o => o.Answer
  | .query .. => ResultSet
  | .queryOne .. => Version

def Request.perform (b : Store.Backend σ) : (q : Request) → Action σ q.Answer
  | .operation o => o.perform b
  | .query sql args => Ledger.query b sql args
  | .queryOne sql args => Ledger.queryOne b sql args

/-- What may come of a request. The store answers operations; a statement is answered by whatever
runs it. -/
def Request.Meets (now : Instant) (s : Store) :
    (q : Request) → Except Error q.Answer → Store → Prop
  | .operation o, r, t => (o.perform (Store.answer now)).outcome s = (r, t)
  | q, r, t => (∃ b : Store.Backend Store, (q.perform b).outcome s = (r, t)) ∧ s.Trimmed t

structure Turn : Type 1 where
  now : Instant
  request : Request
  outcome : Except Error request.Answer
  after : Store

namespace Turn

/-- The turn can take place in `s`. No call of a change fails; reading may fail. -/
structure Follows (s : Store) (e : Turn) : Prop where
  met : e.request.Meets e.now s e.outcome e.after
  undisturbed : ∀ c, e.request = .operation (.change c) → ∀ f, e.outcome ≠ .error (.store f)

def ofEvent (e : Event) : Turn := ⟨e.now, .operation e.operation, e.outcome, e.after⟩

def of (now : Instant) (q : Request) (s : Store) : Turn :=
  ⟨now, q, ((q.perform (Store.answer now)).outcome s).1,
    ((q.perform (Store.answer now)).outcome s).2⟩

theorem of_operation_follows (now : Instant) {o : Operation} (other : ∀ c, o ≠ .change c)
    (s : Store) : (Turn.of now (.operation o) s).Follows s :=
  ⟨(Prod.eta _).symm, fun c same => absurd (Request.operation.inj same) (other c)⟩

theorem of_query {now : Instant} {sql : String} {args : List Json} {s t : Store}
    {answer : Except Error ResultSet}
    (ran : (query (Store.answer now) sql args).outcome s = (answer, t)) :
    Turn.of now (.query sql args) s = ⟨now, .query sql args, answer, t⟩ := by
  rw [Turn.of, Request.perform, ran]

theorem of_query_follows {now : Instant} {sql : String} {args : List Json} {s : Store}
    (trimmed : s.Trimmed (Turn.of now (.query sql args) s).after) :
    (Turn.of now (.query sql args) s).Follows s :=
  ⟨⟨⟨Store.answer now, (Prod.eta _).symm⟩, trimmed⟩, fun _ same => by cases same⟩

def unlisting (now : Instant) (s : Store) : Turn :=
  ⟨now, .query Query.unlisting [], .ok (.unpaginated []), { s with index := [] }⟩

theorem unlisting_follows (now : Instant) (s : Store) : (unlisting now s).Follows s :=
  ⟨⟨⟨Store.answer now, query_unlisting now s⟩, fun _ => false, by simp [unlisting]⟩,
    fun _ same => by cases same⟩

def appended? : Turn → Option Version
  | ⟨_, .operation (.change _), .ok v, _⟩ => some v
  | _ => none

end Turn

/-- Requests that lead from the empty store to another one. -/
inductive Session : List Turn → Store → Prop
  | nil : Session [] .empty
  | snoc (session : Session turns s) (follows : e.Follows s) : Session (turns ++ [e]) e.after

variable {s t : Store} {turns : List Turn} {e : Turn} {past : List Version}

def leftBy (turns : List Turn) : Store := (turns.getLast?.map Turn.after).getD .empty

@[simp] theorem leftBy_snoc (turns : List Turn) (e : Turn) : leftBy (turns ++ [e]) = e.after := by
  simp [leftBy]

theorem Session.leftBy_eq (session : Session turns s) : leftBy turns = s := by
  cases session with
  | nil => rfl
  | snoc session follows => exact leftBy_snoc ..

def log (turns : List Turn) : List Version := turns.filterMap Turn.appended?

theorem log_snoc (turns : List Turn) (e : Turn) :
    log (turns ++ [e]) = log turns ++ e.appended?.toList := by
  rw [log, List.filterMap_append]
  cases found : e.appended? <;> simp [found, log]

theorem Advance.follows {e : Event} (step : Advance s e) : (Turn.ofEvent e).Follows s :=
  ⟨step.met, fun _ _ => step.undisturbed⟩

theorem Run.session (run : Run s events t) (session : Session turns s) :
    Session (turns ++ events.map Turn.ofEvent) t := by
  induction run generalizing turns with
  | nil => rwa [List.map_nil, List.append_nil]
  | @cons s e events t step _ ih =>
    have rest := ih (session.snoc step.follows)
    rwa [List.append_assoc] at rest

/-- What repairs keep, and is true of fewer rows of the index, is kept by every request that is no
change. -/
theorem Request.keeps {P : Store → Prop} {now : Instant} {q : Request}
    {r : Except Error q.Answer} (met : q.Meets now s r t)
    (other : ∀ c, q ≠ .operation (.change c)) (fewer : ∀ s t, s.Trimmed t → P s → P t)
    (added : ∀ id tag s, P s → P (s.indexIfLive id tag).2)
    (removed : ∀ id s, P s → P (s.unindexIfDead id).2) (start : P s) : P t := by
  cases q with
  | query => exact fewer s t met.2 start
  | queryOne => exact fewer s t met.2 start
  | operation o =>
    have after : ((o.perform (Store.answer now)).outcome s).2 = t := congrArg Prod.snd met
    have frame (reading : o.Reads) : P t := by
      rw [← after, keeps_reading now o reading s]
      exact start
    cases o with
    | change c => exact absurd rfl (other c)
    | reconcile =>
      have reading : ∀ c : Store.Call, c.method.reads = true → ∀ s, P s →
          P (Store.answer now c s).2 := by
        intro c reads s start
        rwa [Store.answer_reads now c reads s]
      have kept : Action.Keeps P (reconcile (Store.answer now)) := by
        refine Action.keeps_bind (keeps_audit reading) fun found => keeps_repair ?_ ?_ found
        · exact fun id tag => Action.keeps_call (added id tag)
        · exact fun id => Action.keeps_call (removed id)
      exact after ▸ kept s start
    | _ => exact frame trivial

/-- Whatever is no change leaves the history as it was. -/
theorem Request.history_kept {now : Instant} {q : Request} {r : Except Error q.Answer}
    (met : q.Meets now s r t) (other : ∀ c, q ≠ .operation (.change c)) :
    t.versions = s.versions ∧ t.lastVersion = s.lastVersion := by
  let Same (u : Store) : Prop := u.versions = s.versions ∧ u.lastVersion = s.lastVersion
  have kept : ∀ c : Store.Call, c.method ≠ .insertVersion → c.method ≠ .query → ∀ u, Same u →
      Same (Store.answer now c u).2 := by
    intro c apart unstated u same
    have frame := Store.answer_history now c apart unstated u
    exact ⟨frame.1.trans same.1, frame.2.trans same.2⟩
  refine Request.keeps (P := Same) met other ?_ (fun id tag => kept (.indexIfLive id tag) nofun nofun)
    (fun id => kept (.unindexIfDead id) nofun nofun) ⟨rfl, rfl⟩
  rintro u _ ⟨kept, rfl⟩ same
  exact same

theorem Turn.appended?_eq_none (other : ∀ c, e.request ≠ .operation (.change c)) :
    e.appended? = none := by
  obtain ⟨now, request, outcome, after⟩ := e
  cases request with
  | operation o =>
    cases o with
    | change c => exact absurd rfl (other c)
    | _ => rfl
  | _ => rfl

/-- A turn appends what its change was to append. Otherwise it is no change, or a change that was
refused. -/
theorem Turn.Follows.grows (follows : e.Follows s) (logged : Logged past s) :
    e.appended? = none ∧ (e.after = s ∨ ∀ c, e.request ≠ .operation (.change c)) ∨
    ∃ (c : Change) (payload : String), ∃ room : Room s e.now c.id c.tag payload,
      c.due past = .ok payload ∧
      (c.perform (Store.answer e.now)).outcome s = (.ok (room.version), e.after) ∧
      e.appended? = some (room.version) ∧ e.after = grown s e.now c.id c.tag payload := by
  by_cases change : ∃ c, e.request = .operation (.change c)
  · obtain ⟨c, asked⟩ := change
    obtain ⟨now, request, outcome, after⟩ := e
    dsimp only at asked
    subst asked
    have met := follows.met
    have grows := Change.grows logged met (follows.undisturbed c rfl)
    dsimp only at outcome grows met
    cases outcome with
    | error f =>
      rcases grows with ⟨_, _, _, same⟩ | ⟨_, _, _, answered, _⟩
      · exact .inl ⟨rfl, .inl same⟩
      · cases answered
    | ok v =>
      rcases grows with ⟨_, _, failed, _⟩ | ⟨payload, room, due, answered, same⟩
      · cases failed
      · cases answered
        exact .inr ⟨c, payload, room, due, met, rfl, same⟩
  · have other : ∀ c, e.request ≠ .operation (.change c) := fun c same => change ⟨c, same⟩
    exact .inl ⟨Turn.appended?_eq_none other, .inr other⟩

/-- A turn adds a version to the log, or leaves the history as it was. -/
theorem Turn.Follows.cases (follows : e.Follows s) (logged : Logged past s) :
    (e.appended? = none ∧ e.after.versions = s.versions ∧ e.after.lastVersion = s.lastVersion) ∨
    ∃ c v, e.appended? = some v ∧ Changed e.now past s c (.ok v) e.after := by
  rcases follows.grows logged with ⟨nothing, same | other⟩ | ⟨c, _, room, due, _, found, same⟩
  · exact .inl ⟨nothing, by rw [same], by rw [same]⟩
  · exact .inl ⟨nothing, Request.history_kept follows.met other⟩
  · refine .inr ⟨c, _, found, ?_⟩
    rw [same]
    exact .appended _ due rfl rfl (room.inserted logged.numbered.start)

theorem Turn.Follows.logged (follows : e.Follows s) (logged : Logged past s) :
    Logged (past ++ e.appended?.toList) e.after := by
  rcases follows.cases logged with ⟨nothing, same, last⟩ | ⟨c, v, found, changed⟩
  · rw [nothing, Option.toList_none, List.append_nil]
    exact logged.of_history_eq same last
  · rw [found]
    cases changed with
    | appended _ due names tagged inserted => exact logged.push inserted

theorem Turn.Follows.oneTag (follows : e.Follows s) (logged : Logged past s)
    (oneTag : OneTag past) : OneTag (past ++ e.appended?.toList) := by
  rcases follows.cases logged with ⟨nothing, _⟩ | ⟨c, v, found, changed⟩
  · rwa [nothing, Option.toList_none, List.append_nil]
  · rw [found]
    cases changed with
    | appended _ due names tagged inserted =>
      refine oneTag.push fun u member => ?_
      rw [tagged]
      exact Change.due_tag oneTag due u (names ▸ member)

theorem Session.logged (session : Session turns s) : Logged (log turns) s := by
  induction session with
  | nil => exact Store.empty_logged
  | snoc _ follows ih =>
    rw [log_snoc]
    exact follows.logged ih

theorem Session.oneTag (session : Session turns s) : OneTag (log turns) := by
  induction session with
  | nil => exact fun u member => absurd member List.not_mem_nil
  | snoc session follows ih =>
    rw [log_snoc]
    exact follows.oneTag session.logged ih

/-- A store shows and continues a log, record by record. -/
structure Refines (log : List Version) (s : Store) : Prop where
  /-- The history of a record holds what was appended for it, in the order of the calls. -/
  history : ∀ now id, (history (Store.answer now) id).outcome s =
    (.ok (.unpaginated (entries log id).reverse), s)
  oneTag : ∀ id first, (entries log id).head? = some first →
    ∀ v ∈ entries log id, v.tag = first.tag
  read : ∀ now id tag, (read (Store.answer now) id tag).outcome s =
    (match (entries log id).getLast? with
      | none => .error (.missing (.record tag id))
      | some v => if v.tag = tag then .ok v else .error (.missing (.record tag id)), s)
  /-- A change that the log refuses leaves the store as it was. -/
  refused : ∀ now (c : Change) e, c.due log = .error e →
    (c.perform (Store.answer now)).outcome s = (.error e, s)
  /-- Any other change whose calls succeed returns the payload that the log demands, as the newest
  entry of the record's history. -/
  appended : ∀ now (c : Change) payload r t, c.due log = .ok payload →
    (c.perform (Store.answer now)).outcome s = (r, t) → (∀ f, r ≠ .error (.store f)) →
    ∃ v, r = .ok v ∧ v.id = c.id ∧ v.tag = c.tag ∧ v.payload = payload ∧
      ∀ now, (Ledger.history (Store.answer now) v.id).outcome t =
        (.ok (.unpaginated (v :: (entries log v.id).reverse)), t)

/-- After any requests a ledger is the log of the appends that it answered: readers show that log,
and each further change does what the log demands. -/
theorem session_refines_log (session : Session turns s) : Refines (log turns) s := by
  have logged := session.logged
  have oneTag := session.oneTag
  refine ⟨history_logged logged, ?_, read_logged logged oneTag, ?_, ?_⟩
  · intro id first atHead v member
    obtain ⟨storedF, namesF⟩ := mem_entries.mp (List.mem_of_mem_head? atHead)
    obtain ⟨storedV, namesV⟩ := mem_entries.mp member
    exact oneTag v storedV first storedF (namesV.trans namesF.symm)
  · intro now c e due
    rw [c.perform_logged logged, due]
  · intro now c payload r t due met undisturbed
    cases Change.changed logged met undisturbed with
    | refused e other =>
      rw [due] at other
      cases other
    | appended v other names tagged inserted =>
      rw [due] at other
      refine ⟨v, rfl, names, tagged, (Except.ok.inj other).symm, fun later => ?_⟩
      have own : entries [v] v.id = [v] := by simp [entries]
      rw [history_logged (logged.push inserted), entries_append, own, List.reverse_append]
      rfl

/-- The record that was written, deleted and restored has three entries; the clock was set back
twice. -/
theorem restored_session_refines_log :
    let s := left .empty (play restoring .empty)
    let turns := (play restoring .empty).map Turn.ofEvent
    (log turns).map (fun v => (v.sequence, v.payload, v.timestamp.micros)) =
      [(1, "[1]", 5), (2, tombstone, 6), (3, "[1]", 7)] ∧
    Session turns s ∧ Refines (log turns) s := by
  intro s turns
  have run := play_run restoring .empty (by decide)
  have session : Session turns s := run.session .nil
  exact ⟨by decide, session, session_refines_log session⟩

theorem writing_session : Session (writing.map Turn.ofEvent) once := writing_run.session .nil

def backdated : Store :=
  { once with
    versions := once.versions ++ [⟨2, (default : RecordId).text, "app.note", "2", 0⟩]
    lastVersion := 2 }

theorem once_backdated : (query (Store.answer default) Query.backdating []).outcome once =
    (.ok (.unpaginated []), backdated) :=
  query_disguised Query.backdating_resolved (by decide +kernel) default

/-- A statement that passes for a read gives the record another entry. -/
theorem backdated_not_refined :
    let turns := writing.map Turn.ofEvent
    let e : Turn := ⟨default, .query Query.backdating [], .ok (.unpaginated []), backdated⟩
    Session turns once ∧ Turn.of default (.query Query.backdating []) once = e ∧
      ¬ Refines (log (turns ++ [e])) backdated := by
  intro turns e
  refine ⟨writing_session, Turn.of_query once_backdated, fun refines => ?_⟩
  rw [log_snoc, show e.appended? = none from rfl, Option.toList_none, List.append_nil] at refines
  have shown := refines.history default default
  have entries := congrArg (fun r => r.1.toOption.map (·.remaining.length)) shown
  exact absurd entries (by decide)

end Ledger
end RecordLedger
