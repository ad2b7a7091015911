import RecordLedger.Ledger.ResultSet
import RecordLedger.Proofs.Ledger.Outcome

/-! Result sets under any sequence of calls. One call takes the version in front, or stops the set
with the error of that version, or finds nothing left; a run of calls therefore answers for a front
part of the versions, one after the other, and from the first failure on for none. -/
namespace RecordLedger.Ledger.ResultSet

variable {σ α : Type} {b : Store.Backend σ}

inductive Take : Type 1
  | record
  | value (α : Type) [Decodable α]

namespace Take

def Got : Take → Type
  | record => Version
  | value α => α

def run (b : Store.Backend σ) (r : ResultSet) (s : σ) : (k : Take) → Option k.Got × ResultSet × σ
  | record => (r.next.1, r.next.2, s)
  | value α =>
    let met := (r.scanNext b : StateM σ (Option α × ResultSet)).run s
    (met.1.1, met.1.2, met.2)

end Take

structure Answer : Type 1 where
  take : Take
  got : Option take.Got

namespace Answer

def record (got : Option Version) : Answer := ⟨.record, got⟩

def value [Decodable α] (got : Option α) : Answer := ⟨.value α, got⟩

end Answer

def drain (b : Store.Backend σ) : List Take → ResultSet → σ → List Answer × ResultSet × σ
  | [], r, s => ([], r, s)
  | k :: takes, r, s =>
    let (got, r, s) := k.run b r s
    let (answers, r, s) := drain b takes r s
    (⟨k, got⟩ :: answers, r, s)

inductive Gave (b : Store.Backend σ) (v : Version) : Answer → σ → σ → Prop
  | record (s : σ) : Gave b v (.record (some v)) s s
  | value {α : Type} [Decodable α] {x : α} {s t : σ} :
      (scan b v : Action σ α).outcome s = (.ok x, t) → Gave b v (.value (some x)) s t

/-- The answer for a version whose value cannot be had: the lookup of its creation time fails, or
its payload has no value of the type. -/
inductive Failed (b : Store.Backend σ) (v : Version) (e : Error) : Answer → σ → σ → Prop
  | value {α : Type} [Decodable α] {s t : σ} :
      (scan b v : Action σ α).outcome s = (.error e, t) → Failed b v e (.value (none : Option α)) s t

inductive Step (b : Store.Backend σ) : ResultSet → σ → Answer → ResultSet → σ → Prop
  | ended {r : ResultSet} {a : Answer} (s : σ) : r.length = 0 → a.got = none → Step b r s a r s
  | gave {v : Version} {rest : List Version} {page : PageInfo} {a : Answer} {s t : σ} :
      Gave b v a s t → Step b ⟨v :: rest, page, none⟩ s a ⟨rest, page, none⟩ t
  | failed {v : Version} {rest : List Version} {page : PageInfo} {e : Error} {a : Answer} {s t : σ} :
      Failed b v e a s t → Step b ⟨v :: rest, page, none⟩ s a ⟨rest, page, some e⟩ t

theorem next_ended {r : ResultSet} (ended : r.length = 0) : r.next = (none, r) := by
  obtain ⟨remaining, page, failure⟩ := r
  cases failure with
  | some e => rfl
  | none =>
    cases remaining with
    | nil => rfl
    | cons v rest => cases ended

theorem next_cons (v : Version) (rest : List Version) (page : PageInfo) :
    next ⟨v :: rest, page, none⟩ = (some v, ⟨rest, page, none⟩) := rfl

theorem run_ended {r : ResultSet} (ended : r.length = 0) (k : Take) (s : σ) :
    k.run b r s = (none, r, s) := by
  cases k with
  | record =>
    rw [Take.run, next_ended ended]
    rfl
  | value α =>
    simp only [Take.run, scanNext, next_ended ended]
    rfl

theorem step_run (k : Take) (r : ResultSet) (s : σ) :
    Step b r s ⟨k, (k.run b r s).1⟩ (k.run b r s).2.1 (k.run b r s).2.2 := by
  by_cases ended : r.length = 0
  · rw [run_ended ended]
    exact .ended s ended rfl
  · obtain ⟨remaining, page, failure⟩ := r
    cases failure with
    | some e => exact absurd rfl ended
    | none =>
      cases remaining with
      | nil => exact absurd rfl ended
      | cons v rest =>
        cases k with
        | record => exact .gave (.record s)
        | value α =>
          simp only [Take.run, scanNext_run (next_cons v rest page)]
          cases met : (scan b v : Action σ α).outcome s with
          | mk answer t =>
            cases answer with
            | ok x => exact .gave (.value met)
            | error e => exact .failed (.value met)

/-- Nothing is left to take: no call gives anything or changes anything. -/
theorem drain_ended {r : ResultSet} (ended : r.length = 0) (takes : List Take) (s : σ) :
    drain b takes r s = (takes.map fun k => ⟨k, none⟩, r, s) := by
  induction takes with
  | nil => rfl
  | cons k takes ih => simp only [drain, run_ended ended, ih, List.map_cons]

inductive Gives (b : Store.Backend σ) : List Version → List Answer → σ → σ → Prop
  | nil (s : σ) : Gives b [] [] s s
  | cons {v : Version} {a : Answer} {vs : List Version} {answers : List Answer} {s t u : σ} :
      Gave b v a s t → Gives b vs answers t u → Gives b (v :: vs) (a :: answers) s u

def values [Decodable α] (xs : List α) : List Answer := xs.map fun x => .value (some x)

theorem gave_value_iff [Decodable α] {v : Version} {x : α} {s t : σ} :
    Gave b v (.value (some x)) s t ↔ (scan b v : Action σ α).outcome s = (.ok x, t) := by
  constructor
  · intro gave
    cases gave with
    | value met => exact met
  · exact .value

theorem gives_values_cons {v : Version} {vs : List Version} [Decodable α] {xs : List α} {s u : σ}
    (gives : Gives b (v :: vs) (values xs) s u) :
    ∃ x rest t, xs = x :: rest ∧ (scan b v : Action σ α).outcome s = (.ok x, t) ∧
      Gives b vs (values rest) t u := by
  cases xs with
  | nil => nomatch gives
  | cons x rest =>
    cases gives with
    | cons gave gives => exact ⟨x, rest, _, rfl, gave_value_iff.mp gave, gives⟩

/-- Either all the versions have values, or there is a first that has none. -/
theorem gives_values_cases (b : Store.Backend σ) (α : Type) [Decodable α] (vs : List Version)
    (s : σ) :
    (∃ xs : List α, ∃ t, Gives b vs (values xs) s t) ∨
    ∃ front v back, ∃ xs : List α, ∃ t e u, vs = front ++ v :: back ∧
      Gives b front (values xs) s t ∧ (scan b v : Action σ α).outcome t = (.error e, u) := by
  induction vs generalizing s with
  | nil => exact .inl ⟨[], s, .nil s⟩
  | cons v vs ih =>
    cases met : (scan b v : Action σ α).outcome s with
    | mk answer t =>
      cases answer with
      | error e => exact .inr ⟨[], v, vs, [], s, e, t, rfl, .nil s, met⟩
      | ok x =>
        rcases ih t with ⟨xs, u, gives⟩ | ⟨front, w, back, xs, m, e, u, split, gives, failed⟩
        · exact .inl ⟨x :: xs, u, .cons (.value met) gives⟩
        · exact .inr ⟨v :: front, w, back, x :: xs, m, e, u, by rw [split, List.cons_append],
            .cons (.value met) gives, failed⟩

theorem scans_append [Decodable α] {front : List Version} {xs : List α} {s t : σ}
    (gives : Gives b front (values xs) s t) (back : List Version) :
    ((front ++ back).mapM (scan b) : Action σ (List α)).outcome s =
      match (back.mapM (scan b) : Action σ (List α)).outcome t with
      | (.ok ys, u) => (.ok (xs ++ ys), u)
      | (.error e, u) => (.error e, u) := by
  generalize after : (back.mapM (scan b) : Action σ (List α)).outcome t = rest
  obtain ⟨answer, u⟩ := rest
  induction front generalizing xs s with
  | nil =>
    cases xs with
    | cons x xs => nomatch gives
    | nil =>
      cases gives
      rw [List.nil_append, after]
      cases answer <;> rfl
  | cons v front ih =>
    obtain ⟨x, xs, m, rfl, met, gives⟩ := gives_values_cons gives
    rw [List.cons_append, List.mapM_cons, Action.outcome_bind_ok met, Action.outcome_bind, ih gives]
    cases answer <;> rfl

theorem scans_ok [Decodable α] {vs : List Version} {xs : List α} {s t : σ}
    (gives : Gives b vs (values xs) s t) :
    (vs.mapM (scan b) : Action σ (List α)).outcome s = (.ok xs, t) := by
  have whole := scans_append gives []
  rw [List.append_nil] at whole
  simp only [whole, List.mapM_nil, Action.outcome_pure, List.append_nil]

theorem scans_error [Decodable α] {front back : List Version} {v : Version} {xs : List α} {e : Error}
    {s t u : σ} (gives : Gives b front (values xs) s t)
    (failed : (scan b v : Action σ α).outcome t = (.error e, u)) :
    ((front ++ v :: back).mapM (scan b) : Action σ (List α)).outcome s = (.error e, u) := by
  rw [scans_append gives, List.mapM_cons, Action.outcome_bind, failed]

theorem scans_ok_iff [Decodable α] {vs : List Version} {xs : List α} {s t : σ} :
    (vs.mapM (scan b) : Action σ (List α)).outcome s = (.ok xs, t) ↔
      Gives b vs (values xs) s t := by
  refine ⟨fun met => ?_, scans_ok⟩
  rcases gives_values_cases b α vs s with ⟨ys, u, gives⟩ | ⟨_, _, _, _, _, e, u, rfl, gives, failed⟩
  · rw [scans_ok gives] at met
    cases met
    exact gives
  · rw [scans_error gives failed] at met
    cases met

theorem scans_error_iff [Decodable α] {vs : List Version} {e : Error} {s u : σ} :
    (vs.mapM (scan b) : Action σ (List α)).outcome s = (.error e, u) ↔
      ∃ front v back, ∃ xs : List α, ∃ t, vs = front ++ v :: back ∧
        Gives b front (values xs) s t ∧ (scan b v : Action σ α).outcome t = (.error e, u) := by
  constructor
  · intro met
    rcases gives_values_cases b α vs s with
      ⟨ys, t, gives⟩ | ⟨front, v, back, xs, t, _, _, rfl, gives, failed⟩
    · rw [scans_ok gives] at met
      cases met
    · rw [scans_error gives failed] at met
      cases met
      exact ⟨front, v, back, xs, t, rfl, gives, failed⟩
  · rintro ⟨front, v, back, xs, t, rfl, gives, failed⟩
    exact scans_error gives failed

section All

variable [Decodable α]

theorem scanEach_ended {r rest : ResultSet} {s t : σ}
    (met : (r.scanNext b : StateM σ (Option α × ResultSet)).run s = ((none, rest), t)) :
    (r.scanEach b s : (List α × ResultSet) × σ) = (([], rest), t) := by
  rw [scanEach]
  split
  · next found => cases found.symm.trans met; rfl
  · next found => cases found.symm.trans met

theorem scanEach_gave {r rest : ResultSet} {x : α} {s t : σ}
    (met : (r.scanNext b).run s = ((some x, rest), t)) :
    r.scanEach b s =
      let ((xs, r), u) := rest.scanEach b t
      ((x :: xs, r), u) := by
  rw [scanEach]
  split
  · next found => cases found.symm.trans met
  · next found => cases found.symm.trans met; rfl

theorem scanAll_outcome (r : ResultSet) (s : σ) :
    (r.scanAll b : Action σ (List α)).outcome s =
      let ((xs, r), t) := r.scanEach b s
      (r.finish.map fun _ => xs, t) := rfl

theorem scanAll_stopped (rest : List Version) (page : PageInfo) (e : Error) (s : σ) :
    (scanAll b ⟨rest, page, some e⟩ : Action σ (List α)).outcome s = (.error e, s) := by
  have ended : (scanNext b ⟨rest, page, some e⟩ : StateM σ (Option α × ResultSet)).run s =
      ((none, ⟨rest, page, some e⟩), s) := rfl
  rw [scanAll_outcome, scanEach_ended ended]
  rfl

/-- Taking one value after the other is decoding all versions in order. -/
theorem scanAll_eq_mapM (vs : List Version) (page : PageInfo) (s : σ) :
    (scanAll b ⟨vs, page, none⟩ : Action σ (List α)).outcome s = (vs.mapM (scan b)).outcome s := by
  induction vs generalizing s with
  | nil =>
    have ended : (scanNext b ⟨[], page, none⟩ : StateM σ (Option α × ResultSet)).run s =
        ((none, ⟨[], page, none⟩), s) := rfl
    rw [scanAll_outcome, scanEach_ended ended]
    rfl
  | cons v vs ih =>
    have step := scanNext_run (b := b) (α := α) (next_cons v vs page) s
    cases met : (scan b v : Action σ α).outcome s with
    | mk answer t =>
      rw [met] at step
      cases answer with
      | error e =>
        rw [scanAll_outcome, scanEach_ended step, List.mapM_cons, Action.outcome_bind_error met]
        rfl
      | ok x =>
        rw [List.mapM_cons, Action.outcome_bind_ok met, Action.outcome_bind, ← ih t,
          scanAll_outcome, scanAll_outcome, scanEach_gave step]
        obtain ⟨⟨xs, r⟩, u⟩ := (scanEach b ⟨vs, page, none⟩ t : (List α × ResultSet) × σ)
        dsimp only
        cases r.finish <;> rfl

end All

def Idle (answers : List Answer) : Prop := ∀ a ∈ answers, a.got = none

theorem idle_calls (takes : List Take) : Idle (takes.map fun k => ⟨k, none⟩) := by
  intro a mem
  obtain ⟨k, _, rfl⟩ := List.mem_map.mp mem
  rfl

/-- A set of `records` from which `taken` have been taken without a failure. In the state `t` all
its values are those of the versions left, in order, or the error of the first that has none. -/
structure Going (b : Store.Backend σ) (records taken : List Version) (r : ResultSet) (t : σ) :
    Prop where
  split : records = taken ++ r.intoRecords
  length : r.length = records.length - taken.length
  sizeHint : r.sizeHint = (records.length - taken.length, some (records.length - taken.length))
  failure : r.failure = none
  finish : r.finish = .ok ()
  all (α : Type) [Decodable α] (xs : List α) (u : σ) :
    (r.scanAll b : Action σ (List α)).outcome t = (.ok xs, u) ↔
      Gives b r.intoRecords (values xs) t u
  first (α : Type) [Decodable α] (e : Error) (u : σ) :
    (r.scanAll b : Action σ (List α)).outcome t = (.error e, u) ↔
      ∃ front v back, ∃ xs : List α, ∃ m, r.intoRecords = front ++ v :: back ∧
        Gives b front (values xs) t m ∧ (scan b v : Action σ α).outcome m = (.error e, u)

structure Stopped (b : Store.Backend σ) (records taken : List Version) (v : Version) (e : Error)
    (r : ResultSet) (t : σ) : Prop where
  split : records = taken ++ v :: r.intoRecords
  length : r.length = 0
  sizeHint : r.sizeHint = (0, some 0)
  failure : r.failure = some e
  finish : r.finish = .error e
  all (α : Type) [Decodable α] : (r.scanAll b : Action σ (List α)).outcome t = (.error e, t)
  later (takes : List Take) (u : σ) : drain b takes r u = (takes.map fun k => ⟨k, none⟩, r, u)

theorem going_start (b : Store.Backend σ) (records : List Version) (page : PageInfo) (t : σ) :
    Going b records [] ⟨records, page, none⟩ t where
  split := rfl
  length := rfl
  sizeHint := rfl
  failure := rfl
  finish := rfl
  all _ _ _ _ := by rw [scanAll_eq_mapM]; exact scans_ok_iff
  first _ _ _ _ := by rw [scanAll_eq_mapM]; exact scans_error_iff

theorem Going.cons {records taken : List Version} {r : ResultSet} {t : σ} (v : Version)
    (going : Going b records taken r t) : Going b (v :: records) (v :: taken) r t where
  split := by rw [going.split, List.cons_append]
  length := by rw [going.length, List.length_cons, List.length_cons, Nat.add_sub_add_right]
  sizeHint := by rw [going.sizeHint, List.length_cons, List.length_cons, Nat.add_sub_add_right]
  failure := going.failure
  finish := going.finish
  all := going.all
  first := going.first

theorem stopped_start (b : Store.Backend σ) (v : Version) (rest : List Version) (page : PageInfo)
    (e : Error) (t : σ) : Stopped b (v :: rest) [] v e ⟨rest, page, some e⟩ t where
  split := rfl
  length := rfl
  sizeHint := rfl
  failure := rfl
  finish := rfl
  all _ _ := scanAll_stopped rest page e t
  later := drain_ended rfl

theorem Stopped.cons {records taken : List Version} {v : Version} {e : Error} {r : ResultSet} {t : σ}
    (w : Version) (stopped : Stopped b records taken v e r t) :
    Stopped b (w :: records) (w :: taken) v e r t where
  split := by rw [stopped.split, List.cons_append]
  length := stopped.length
  sizeHint := stopped.sizeHint
  failure := stopped.failure
  finish := stopped.finish
  all := stopped.all
  later := stopped.later

/-- The answers to calls on a set of `records`, from `s` to `t`. They are those of a front part of
the records; calls that gave nothing came after the last record or after a failure. -/
inductive Course (b : Store.Backend σ) (records : List Version) :
    List Answer → ResultSet → σ → σ → Prop
  | going {taken : List Version} {given idle : List Answer} {r : ResultSet} {s t : σ} :
      Gives b taken given s t → Idle idle → (idle = [] ∨ r.intoRecords = []) →
      Going b records taken r t → Course b records (given ++ idle) r s t
  | stopped {taken : List Version} {v : Version} {e : Error} {given idle : List Answer} {a : Answer}
      {r : ResultSet} {s u t : σ} :
      Gives b taken given s u → Failed b v e a u t → Idle idle → Stopped b records taken v e r t →
      Course b records (given ++ a :: idle) r s t

theorem Course.cons {records : List Version} {answers : List Answer} {r : ResultSet} {v : Version}
    {a : Answer} {s t u : σ} (gave : Gave b v a s t) (course : Course b records answers r t u) :
    Course b (v :: records) (a :: answers) r s u := by
  cases course with
  | going gives idle ended going => exact .going (.cons gave gives) idle ended (going.cons v)
  | stopped gives failed idle stopped =>
    exact .stopped (.cons gave gives) failed idle (stopped.cons v)

theorem drain_takes (takes : List Take) (r : ResultSet) (s : σ) :
    (drain b takes r s).1.map Answer.take = takes := by
  induction takes generalizing r s with
  | nil => rfl
  | cons k takes ih => rw [drain, List.map_cons, ih]

theorem Step.page {r r' : ResultSet} {a : Answer} {s t : σ} (step : Step b r s a r' t) :
    r'.page = r.page := by
  cases step <;> rfl

theorem drain_page (takes : List Take) (r : ResultSet) (s : σ) :
    (drain b takes r s).2.1.page = r.page := by
  induction takes generalizing r s with
  | nil => rfl
  | cons k takes ih => rw [drain, ih, (step_run k r s).page]

theorem drain_course (takes : List Take) (records : List Version) (page : PageInfo) (s : σ) :
    Course b records (drain b takes ⟨records, page, none⟩ s).1
      (drain b takes ⟨records, page, none⟩ s).2.1 s (drain b takes ⟨records, page, none⟩ s).2.2 := by
  induction takes generalizing records s with
  | nil => exact .going (.nil s) (idle_calls []) (.inl rfl) (going_start b records page s)
  | cons k takes ih =>
    have step : Step b _ s _ _ _ := step_run k ⟨records, page, none⟩ s
    rw [drain]
    generalize k.run b ⟨records, page, none⟩ s = met at step ⊢
    obtain ⟨got, r, t⟩ := met
    cases step with
    | ended _ ended nothing =>
      obtain rfl : records = [] := List.length_eq_zero_iff.mp ended
      simp only [drain_ended ended]
      have idle : Idle (⟨k, got⟩ :: takes.map fun k => ⟨k, none⟩) :=
        List.forall_mem_cons.mpr ⟨nothing, idle_calls takes⟩
      exact .going (.nil t) idle (.inr rfl) (going_start b [] page t)
    | gave gave => exact (ih _ t).cons gave
    | failed failed =>
      simp only [drain_ended (r := ⟨_, page, some _⟩) rfl]
      exact .stopped (.nil s) failed (idle_calls takes) (stopped_start b _ _ page _ t)

theorem drain_append (first later : List Take) (r : ResultSet) (s : σ) :
    drain b (first ++ later) r s =
      let (answers, r, t) := drain b first r s
      (answers ++ (drain b later r t).1, (drain b later r t).2) := by
  induction first generalizing r s with
  | nil => rfl
  | cons k first ih =>
    simp only [List.cons_append, drain, ih]

/-- A set of records drained by calls of any kinds. Each call takes the next record, which comes as
it is or as its value, until one has no value: the set stops with that error. Before, its length is
that of the records not yet taken. The page stays as it was, and calls to come go on from there. -/
theorem drained_in_order (b : Store.Backend σ) (records : List Version) (page : PageInfo)
    (takes : List Take) (s : σ) :
    ∃ answers r t, drain b takes ⟨records, page, none⟩ s = (answers, r, t) ∧
      answers.map Answer.take = takes ∧ r.page = page ∧ Course b records answers r s t ∧
      ∀ later, drain b (takes ++ later) ⟨records, page, none⟩ s =
        (answers ++ (drain b later r t).1, (drain b later r t).2) :=
  ⟨_, _, _, rfl, drain_takes takes _ s, drain_page takes _ s, drain_course takes records page s,
    fun later => drain_append takes later _ s⟩

end RecordLedger.Ledger.ResultSet
