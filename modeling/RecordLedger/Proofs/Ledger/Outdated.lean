import RecordLedger.Proofs.Ledger.Failure
import RecordLedger.Proofs.Ledger.Repair

/-! Repairs by a report that may be as outdated as it likes, with calls that may fail. Each repair
looks at the latest version of its entry again, so an entry that does not apply any more changes
nothing. -/
namespace RecordLedger.Ledger

open Store (Adds IndexRow Interrupted Keyed Lacks Lingers Live Method OnlyFailures Recorded Removes)

variable {s t u : Store} {now : Instant} {d : Drift}

/-- What was done for each entry of a list in turn, with the entries that changed something. -/
inductive Steps (Step : Store → Drift → Bool → Store → Prop) :
    Store → List Drift → List Drift → Store → Prop
  | nil {s : Store} : Steps Step s [] [] s
  | changed {s t u : Store} {d : Drift} {rest reported : List Drift} (step : Step s d true u)
      (steps : Steps Step u rest reported t) : Steps Step s (d :: rest) (d :: reported) t
  | same {s t u : Store} {d : Drift} {rest reported : List Drift} (step : Step s d false u)
      (steps : Steps Step u rest reported t) : Steps Step s (d :: rest) reported t

theorem Steps.keyed {Step : Store → Drift → Bool → Store → Prop} {listed reported : List Drift}
    (kept : ∀ s d changed t, Step s d changed t → Keyed s → Keyed t)
    (steps : Steps Step s listed reported t) (keyed : Keyed s) : Keyed t := by
  induction steps with
  | nil => exact keyed
  | changed step _ ih => exact ih (kept _ _ _ _ step keyed)
  | same step _ ih => exact ih (kept _ _ _ _ step keyed)

def Tries (method : Method) (Step : Store → Drift → Bool → Store → Prop)
    (repair : Drift → Action (Recorded (Interrupted Store)) Bool) : Prop :=
  ∀ d r (t u : Recorded (Interrupted Store)), Keyed t.state.store →
    OnlyFailures t.state.pending → (repair d).outcome t = (r, u) →
    (∃ changed, r = .ok changed ∧ OnlyFailures u.state.pending ∧
        u.made = t.made ++ [(method, true)] ∧ Step t.state.store d changed u.state.store) ∨
      ∃ f, r = .error (.store f) ∧ u.made = t.made ++ [(method, false)] ∧
        u.state.store = t.state.store

def AddsFor (s : Store) (d : Drift) : Bool → Store → Prop := Adds s d.id d.tag

def RemovesFor (s : Store) (d : Drift) : Bool → Store → Prop := Removes s d.id

theorem tries_adds :
    Tries .indexIfLive AddsFor fun d => call (trial now) (.indexIfLive d.id d.tag) := by
  intro d r t u keyed quiet met
  rw [Action.outcome_call] at met
  cases answered : trial now (.indexIfLive d.id d.tag) t with
  | mk answer w =>
    rw [answered] at met
    cases met
    cases answer with
    | ok changed =>
      obtain ⟨left, made, passed⟩ := trial_ok quiet answered
      rcases Store.indexIfLive_cases keyed passed with ⟨_, same, adds⟩ | ⟨⟨_, other⟩, _⟩
      · cases same
        exact .inl ⟨changed, rfl, left, made, adds⟩
      · cases other
    | error f =>
      obtain ⟨made, same | failed⟩ := trial_error quiet answered
      · exact .inr ⟨f, rfl, made, same⟩
      · rcases Store.indexIfLive_cases keyed failed with ⟨_, other, _⟩ | ⟨_, same, _⟩
        · cases other
        · exact .inr ⟨f, rfl, made, same⟩

theorem tries_removes :
    Tries .unindexIfDead RemovesFor fun d => call (trial now) (.unindexIfDead d.id) := by
  intro d r t u keyed quiet met
  obtain ⟨_, _, alone, removes⟩ := Store.unindexIfDead_removes keyed d.id
  rw [Action.outcome_call] at met
  cases answered : trial now (.unindexIfDead d.id) t with
  | mk answer w =>
    rw [answered] at met
    cases met
    cases answer with
    | ok changed =>
      obtain ⟨left, made, passed⟩ := trial_ok quiet answered
      cases alone.symm.trans passed
      exact .inl ⟨_, rfl, left, made, removes⟩
    | error f =>
      obtain ⟨made, same | failed⟩ := trial_error quiet answered
      · exact .inr ⟨f, rfl, made, same⟩
      · cases alone.symm.trans failed

/-- Repairs go through a list entry by entry, up to the first call that fails. -/
theorem repairEach_steps {method : Method} {Step : Store → Drift → Bool → Store → Prop}
    {repair : Drift → Action (Recorded (Interrupted Store)) Bool} (tries : Tries method Step repair)
    (kept : ∀ s d changed t, Step s d changed t → Keyed s → Keyed t)
    {listed : List Drift} {r : Except Error (List Drift)} {t u : Recorded (Interrupted Store)}
    (keyed : Keyed t.state.store) (quiet : OnlyFailures t.state.pending)
    (met : (repairEach repair listed).outcome t = (r, u)) :
    (∃ reported, r = .ok reported ∧ OnlyFailures u.state.pending ∧
        u.made = t.made ++ listed.map (fun _ => (method, true)) ∧
        Steps Step t.state.store listed reported u.state.store) ∨
      ∃ f done d rest reported, r = .error (.store f) ∧ listed = done ++ d :: rest ∧
        u.made = t.made ++ done.map (fun _ => (method, true)) ++ [(method, false)] ∧
        Steps Step t.state.store done reported u.state.store := by
  induction listed generalizing t r with
  | nil =>
    cases met
    exact .inl ⟨[], rfl, quiet, (List.append_nil _).symm, .nil⟩
  | cons d rest ih =>
    rcases Action.bind_cases met with ⟨e, first, rfl⟩ | ⟨changed, v, first, later⟩
    · rcases tries d _ t u keyed quiet first with ⟨_, other, _⟩ | ⟨f, same, made, unchanged⟩
      · cases other
      · cases same
        refine .inr ⟨f, [], d, rest, [], rfl, rfl, ?_, unchanged ▸ .nil⟩
        rw [made, List.map_nil, List.append_nil]
    · rcases tries d _ t v keyed quiet first with ⟨_, same, left, made, step⟩ | ⟨_, other, _⟩
      · cases same
        have join {more reported : List Drift} {w : Store}
            (steps : Steps Step v.state.store more reported w) :
            Steps Step t.state.store (d :: more)
              (if changed then d :: reported else reported) w := by
          cases changed with
          | true => exact .changed step steps
          | false => exact .same step steps
        have keyed := kept _ _ _ _ step keyed
        rcases Action.bind_cases later with ⟨e, failed, rfl⟩ | ⟨reported, w, passed, last⟩
        · rcases ih keyed left failed with ⟨_, other, _⟩ |
            ⟨f, done, next, more, reported, same, rfl, made', steps⟩
          · cases other
          · refine .inr ⟨f, d :: done, next, more, _, same, rfl, ?_, join steps⟩
            simp [made', made]
        · cases last
          rcases ih keyed left passed with ⟨_, same, left, made', steps⟩ | ⟨_, _, _, _, _, other, _⟩
          · cases same
            refine .inl ⟨_, rfl, left, ?_, join steps⟩
            simp [made', made]
          · cases other
      · cases other

/-- The entries that were due, in the order of their list and each record once. -/
structure Reported (due : Drift → Prop) (listed reported : List Drift) : Prop where
  order : reported.Sublist listed
  once : reported.Pairwise fun a b => a.id ≠ b.id
  only : ∀ d ∈ reported, due d
  all : ∀ d ∈ listed, due d → ∃ e ∈ reported, e.id = d.id

theorem Reported.nil (due : Drift → Prop) : Reported due [] [] :=
  ⟨.slnil, .nil, List.forall_mem_nil _, List.forall_mem_nil _⟩

theorem Reported.take {due : Drift → Prop} {rest reported : List Drift} (first : due d)
    (others : Reported (fun e => due e ∧ e.id ≠ d.id) rest reported) :
    Reported due (d :: rest) (d :: reported) := by
  refine ⟨others.order.cons_cons d, ?_, ?_, ?_⟩
  · refine List.pairwise_cons.mpr ⟨fun e member => ?_, others.once⟩
    exact (others.only e member).2.symm
  · exact List.forall_mem_cons.mpr ⟨first, fun e member => (others.only e member).1⟩
  · refine List.forall_mem_cons.mpr ⟨fun _ => ⟨d, List.mem_cons_self, rfl⟩, ?_⟩
    intro e member needed
    by_cases same : e.id = d.id
    · exact ⟨d, List.mem_cons_self, same.symm⟩
    · obtain ⟨f, among, names⟩ := others.all e member ⟨needed, same⟩
      exact ⟨f, List.mem_cons_of_mem d among, names⟩

theorem Reported.skip {due : Drift → Prop} {rest reported : List Drift} (first : ¬ due d)
    (others : Reported due rest reported) : Reported due (d :: rest) reported := by
  refine ⟨others.order.cons d, others.once, others.only, ?_⟩
  exact List.forall_mem_cons.mpr ⟨fun needed => absurd needed first, others.all⟩

theorem Reported.congr {due due' : Drift → Prop} {listed reported : List Drift}
    (same : ∀ d, due d ↔ due' d) (found : Reported due listed reported) :
    Reported due' listed reported := by
  obtain rfl : due = due' := funext fun d => propext (same d)
  exact found

theorem Steps.added {listed reported : List Drift} (steps : Steps AddsFor s listed reported t) :
    t.versions = s.versions ∧ Reported (fun d => Lacks s d.id d.tag) listed reported ∧
      ∃ rows : List IndexRow, t.index = s.index ++ rows ∧
        rows.map (fun row => (row.id, row.tag)) = reported.map Drift.texts := by
  induction steps with
  | nil =>
    exact ⟨rfl, .nil _, [], (List.append_nil _).symm, rfl⟩
  | @changed s t u d rest reported adds _ ih =>
    obtain ⟨history, found, rows, grown, texts⟩ := ih
    have first := adds.added rfl
    refine ⟨history.trans adds.history, .take (adds.due.mp rfl) (found.congr fun e => ?_),
      ⟨s.lastIndex + 1, d.id.text, d.tag.text⟩ :: rows, ?_, ?_⟩
    · have apart : u.isIndexed e.id.text = false ↔
          s.isIndexed e.id.text = false ∧ e.id ≠ d.id := by
        rw [Store.isIndexed, first, List.any_append, Bool.or_eq_false_iff, ← Store.isIndexed]
        simp [@eq_comm _ d.id]
      simp only [Lacks, apart, Store.latest_of_versions_eq adds.history]
      exact and_right_comm
    · rw [grown, first, List.append_assoc]
      rfl
    · rw [List.map_cons, List.map_cons, texts, Drift.texts]
  | @same s t u d rest reported adds _ ih =>
    obtain ⟨history, found, rows, grown, texts⟩ := ih
    have kept := adds.same rfl
    refine ⟨history.trans adds.history, .skip (mt adds.due.mpr Bool.false_ne_true)
      (found.congr fun e => ?_), rows, kept ▸ grown, texts⟩
    simp only [Lacks, Store.isIndexed, kept, Store.latest_of_versions_eq adds.history]

theorem Steps.removed {listed reported : List Drift}
    (steps : Steps RemovesFor s listed reported t) :
    t.versions = s.versions ∧ Reported (fun d => Lingers s d.id) listed reported ∧
      t.index = s.index.filter fun row => !reported.any fun d => d.id.text == row.id := by
  induction steps with
  | nil => exact ⟨rfl, .nil _, (List.filter_eq_self.mpr fun _ _ => rfl).symm⟩
  | @changed s t u d rest reported removes _ ih =>
    obtain ⟨history, found, left⟩ := ih
    have first := removes.removed rfl
    refine ⟨history.trans removes.history, .take (removes.due.mp rfl) (found.congr fun e => ?_), ?_⟩
    · have apart : u.isIndexed e.id.text = true ↔
          s.isIndexed e.id.text = true ∧ e.id ≠ d.id := by
        simp only [Store.isIndexed_iff, first, List.mem_filter, bne_iff_ne]
        constructor
        · rintro ⟨row, ⟨stored, other⟩, names⟩
          exact ⟨⟨row, stored, names⟩, fun same => other (names.trans (congrArg _ same))⟩
        · rintro ⟨⟨row, stored, names⟩, other⟩
          refine ⟨row, ⟨stored, fun same => other ?_⟩, names⟩
          exact RecordId.text_injective _ _ (names.symm.trans same)
      simp only [Lingers, apart, Store.live_of_versions_eq removes.history]
      exact and_right_comm
    · rw [left, first, List.filter_filter]
      refine List.filter_congr fun row _ => ?_
      rw [List.any_cons, Bool.not_or, Bool.and_comm, bne, Bool.beq_comm]
  | @same s t u d rest reported removes _ ih =>
    obtain ⟨history, found, left⟩ := ih
    have kept := removes.same rfl
    refine ⟨history.trans removes.history, .skip (mt removes.due.mpr Bool.false_ne_true)
      (found.congr fun e => ?_), kept ▸ left⟩
    simp only [Lingers, Store.isIndexed, kept, Store.live_of_versions_eq removes.history]

structure Applied (s : Store) (given reported : IndexReport) (t : Store) : Prop where
  history : t.versions = s.versions
  missing : Reported (fun d => Lacks s d.id d.tag) given.missing reported.missing
  stale : Reported (fun d => Lingers s d.id) given.stale reported.stale
  /-- The index has lost the rows of the stale entries and got those of the missing ones. -/
  index : ∃ rows : List IndexRow,
    rows.map (fun row => (row.id, row.tag)) = reported.missing.map Drift.texts ∧
    t.index = (s.index.filter fun row => !reported.stale.any fun d => d.id.text == row.id) ++ rows

theorem applied_of_steps {given : IndexReport} {added removed : List Drift}
    (adds : Steps AddsFor s given.missing added u)
    (removes : Steps RemovesFor u given.stale removed t) : Applied s given ⟨added, removed⟩ t := by
  obtain ⟨history, missing, rows, grown, texts⟩ := adds.added
  obtain ⟨history', stale, left⟩ := removes.removed
  have live : ∀ row ∈ rows, Live s row.id := by
    intro row added
    obtain ⟨d, member, same⟩ := mem_texts_of texts.symm added
    obtain ⟨_, r, latest, _, alive⟩ := missing.only d member
    exact (Prod.mk.inj same).1 ▸ ⟨r, latest, alive⟩
  have lingers : ∀ d : Drift, Lingers u d.id ↔ Lingers s d.id := by
    intro d
    rw [Lingers, Lingers, Store.live_of_versions_eq history]
    refine and_congr_left fun gone => ?_
    rw [Store.isIndexed_iff, Store.isIndexed_iff, grown]
    refine ⟨fun ⟨row, stored, names⟩ => ?_, fun ⟨row, stored, names⟩ =>
      ⟨row, List.mem_append_left _ stored, names⟩⟩
    rcases List.mem_append.mp stored with old | new
    · exact ⟨row, old, names⟩
    · exact absurd (names ▸ live row new) gone
  have stale := stale.congr lingers
  refine ⟨history'.trans history, missing, stale, rows, texts, ?_⟩
  rw [left, grown, List.filter_append]
  congr 1
  refine List.filter_eq_self.mpr fun row added => ?_
  rw [Bool.not_eq_true', List.any_eq_false]
  intro d member names
  exact (stale.only d member).2 (beq_iff_eq.mp names ▸ live row added)

inductive Before (given : IndexReport) : IndexReport → Method → Prop
  | missing {done rest : List Drift} {d : Drift} (shape : given.missing = done ++ d :: rest) :
    Before given ⟨done, []⟩ .indexIfLive
  | stale {done rest : List Drift} {d : Drift} (shape : given.stale = done ++ d :: rest) :
    Before given ⟨given.missing, done⟩ .unindexIfDead

def callsFor (given : IndexReport) : List (Method × Bool) :=
  given.missing.map (fun _ => (.indexIfLive, true)) ++
    given.stale.map (fun _ => (.unindexIfDead, true))

inductive Ended (s : Store) (given : IndexReport) :
    Except Error IndexReport → List (Method × Bool) → Store → Prop
  | whole {reported : IndexReport} {t : Store} (applied : Applied s given reported t) :
    Ended s given (.ok reported) (callsFor given) t
  | part {f : Store.Error} {done reported : IndexReport} {method : Method} {t : Store}
    (before : Before given done method) (applied : Applied s done reported t) :
    Ended s given (.error (.store f)) (callsFor done ++ [(method, false)]) t

theorem repair_ends {given : IndexReport} {pending : List Store.Interruption}
    {r : Except Error IndexReport} {t : Recorded (Interrupted Store)} (keyed : Keyed s)
    (quiet : OnlyFailures pending)
    (met : (repair (trial now) given).outcome ⟨⟨s, pending⟩, []⟩ = (r, t)) :
    Ended s given r t.made t.state.store := by
  have adding : ∀ s d changed t, AddsFor s d changed t → Keyed s → Keyed t :=
    fun _ _ _ _ adds => adds.keyed
  have removing : ∀ s d changed t, RemovesFor s d changed t → Keyed s → Keyed t :=
    fun _ _ _ _ removes => removes.keyed
  rcases Action.bind_cases met with ⟨e, failed, rfl⟩ | ⟨missing, v, first, later⟩
  · rcases repairEach_steps tries_adds adding keyed quiet failed with ⟨_, other, _⟩ |
      ⟨f, done, d, rest, reported, same, shape, made, adds⟩
    · cases other
    · cases same
      have ended : Ended s given (.error (.store f)) (callsFor ⟨done, []⟩ ++ _) _ :=
        .part (.missing shape) (applied_of_steps adds .nil)
      simpa [callsFor, made] using ended
  · rcases repairEach_steps tries_adds adding keyed quiet first with
      ⟨_, same, left, made, adds⟩ | ⟨_, _, _, _, _, other, _⟩
    · cases same
      have keyed := adds.keyed adding keyed
      rcases Action.bind_cases later with ⟨e, failed, rfl⟩ | ⟨stale, w, second, done⟩
      · rcases repairEach_steps tries_removes removing keyed left failed with ⟨_, other, _⟩ |
          ⟨f, done, d, rest, reported, same, shape, made', removes⟩
        · cases other
        · cases same
          have ended : Ended s given (.error (.store f)) (callsFor ⟨given.missing, done⟩ ++ _) _ :=
            .part (.stale shape) (applied_of_steps adds removes)
          simpa [callsFor, made, made'] using ended
      · cases done
        rcases repairEach_steps tries_removes removing keyed left second with
          ⟨_, same, _, made', removes⟩ | ⟨_, _, _, _, _, other, _⟩
        · cases same
          have ended : Ended s given _ (callsFor given) _ := .whole (applied_of_steps adds removes)
          simpa [callsFor, made, made'] using ended
        · cases other
    · cases other

/-- What no report can do to a store. -/
structure Harmless (s : Store) (given : IndexReport) (t : Store) : Prop where
  history : t.versions = s.versions
  /-- A record that the index was right about keeps its row, or stays without one. -/
  settled : ∀ id : RecordId, (s.isIndexed id.text = true ↔ Live s id.text) →
    (t.isIndexed id.text = true ↔ Live t id.text) ∧
      t.index.filter (·.id = id.text) = s.index.filter (·.id = id.text)
  added : ∀ row ∈ t.index, row ∉ s.index →
    ∃ d ∈ given.missing, row.id = d.id.text ∧ row.tag = d.tag.text ∧ Lacks s d.id d.tag
  removed : ∀ row ∈ s.index, row ∉ t.index →
    ∃ d ∈ given.stale, row.id = d.id.text ∧ ¬ Live s row.id

section

variable {given reported : IndexReport} (applied : Applied s given reported t)
include applied

theorem Applied.added {row : IndexRow} (stored : row ∈ t.index) :
    row ∈ s.index ∨
      ∃ d ∈ given.missing, row.id = d.id.text ∧ row.tag = d.tag.text ∧ Lacks s d.id d.tag := by
  obtain ⟨rows, texts, shape⟩ := applied.index
  rw [shape] at stored
  rcases List.mem_append.mp stored with old | new
  · exact .inl (List.mem_filter.mp old).1
  · obtain ⟨d, member, same⟩ := mem_texts_of texts.symm new
    obtain ⟨names, tagged⟩ := Prod.mk.inj same
    exact .inr ⟨d, applied.missing.order.subset member, names.symm, tagged.symm,
      applied.missing.only d member⟩

theorem Applied.kept_or_stale {row : IndexRow} (stored : row ∈ s.index) :
    row ∈ t.index ∨ ∃ d ∈ given.stale, row.id = d.id.text ∧ ¬ Live s row.id := by
  obtain ⟨rows, _, shape⟩ := applied.index
  by_cases found : (reported.stale.any fun d => d.id.text == row.id) = true
  · obtain ⟨d, member, names⟩ := List.any_eq_true.mp found
    have names := beq_iff_eq.mp names
    exact .inr ⟨d, applied.stale.order.subset member, names.symm,
      names ▸ (applied.stale.only d member).2⟩
  · refine .inl (shape ▸ List.mem_append_left _ (List.mem_filter.mpr ⟨stored, ?_⟩))
    simpa using found

/-- The index was right about the record: it keeps its rows and gets no other. -/
theorem Applied.rows_kept {id : RecordId}
    (right : s.isIndexed id.text = true ↔ Live s id.text) :
    t.index.filter (·.id = id.text) = s.index.filter (·.id = id.text) := by
  obtain ⟨rows, texts, shape⟩ := applied.index
  have others : rows.filter (·.id = id.text) = [] := by
    refine List.filter_eq_nil_iff.mpr fun row new same => ?_
    obtain ⟨d, member, texts⟩ := mem_texts_of texts.symm new
    obtain ⟨absent, r, latest, _, alive⟩ := applied.missing.only d member
    rw [(Prod.mk.inj texts).1, of_decide_eq_true same] at absent latest
    rw [right.mpr ⟨r, latest, alive⟩] at absent
    cases absent
  rw [shape, List.filter_append, others, List.append_nil, List.filter_filter]
  refine List.filter_congr fun row stored => ?_
  by_cases names : row.id = id.text
  · have spared : (reported.stale.any fun d => d.id.text == row.id) = false := by
      refine List.any_eq_false.mpr fun d member same => ?_
      obtain ⟨present, gone⟩ := applied.stale.only d member
      rw [beq_iff_eq.mp same, names] at present gone
      exact gone (right.mp present)
    rw [spared, Bool.not_false, Bool.and_true]
  · rw [decide_eq_false names, Bool.false_and]

theorem Applied.harmless : Harmless s given t := by
  have indexed (u : Store) (id : String) :
      u.isIndexed id = true ↔ u.index.filter (·.id = id) ≠ [] := by
    simp [Store.isIndexed_iff]
  refine ⟨applied.history, fun id right => ⟨?_, applied.rows_kept right⟩, ?_, ?_⟩
  · rw [Store.live_of_versions_eq applied.history, ← right, indexed, indexed,
      applied.rows_kept right]
  · exact fun row stored new => (applied.added stored).resolve_left new
  · exact fun row stored left => (applied.kept_or_stale stored).resolve_left left

end

theorem Harmless.of_before {given done : IndexReport} {method : Method}
    (before : Before given done method) (harmless : Harmless s done t) : Harmless s given t := by
  obtain ⟨missing, stale⟩ : done.missing ⊆ given.missing ∧ done.stale ⊆ given.stale := by
    cases before with
    | missing shape => exact ⟨shape ▸ List.subset_append_left .., List.nil_subset _⟩
    | stale shape => exact ⟨List.Subset.refl _, shape ▸ List.subset_append_left ..⟩
  refine ⟨harmless.history, harmless.settled, fun row stored new => ?_, fun row stored left => ?_⟩
  · obtain ⟨d, member, names, tagged, lacks⟩ := harmless.added row stored new
    exact ⟨d, missing member, names, tagged, lacks⟩
  · obtain ⟨d, member, names, gone⟩ := harmless.removed row stored left
    exact ⟨d, stale member, names, gone⟩

/-- A repair by any report harms no store, whichever of its calls fails. If none does, its own
report names the entries that changed something; otherwise the entries before the failing call have
been applied, and no others. -/
theorem outdated_repair_harmless {given : IndexReport} {pending : List Store.Interruption}
    {r : Except Error IndexReport} {t : Recorded (Interrupted Store)} (keyed : Keyed s)
    (quiet : OnlyFailures pending)
    (met : (repair (trial now) given).outcome ⟨⟨s, pending⟩, []⟩ = (r, t)) :
    Harmless s given t.state.store ∧ Ended s given r t.made t.state.store := by
  have ended := repair_ends keyed quiet met
  refine ⟨?_, ended⟩
  generalize t.made = made at ended
  cases ended with
  | whole applied => exact applied.harmless
  | part before applied => exact applied.harmless.of_before before

/-- Of the missing entries the second repeats the first and the third has no history; of the stale
ones the first is live again, and the call for the last fails. -/
theorem raced_repair_harmless :
    let id (octet : UInt8) : RecordId := ⟨List.replicate 16 octet, List.length_replicate⟩
    let tag : Tag := ⟨"app.note", by decide⟩
    let s : Store := (Store.answer default : Store.Backend Store).runAll
      [.insertVersion (id 1) tag "[1]", .insertVersion (id 2) tag "[2]", .upsertIndex (id 2) tag,
        .upsertIndex (id 3) tag] .empty
    let given : IndexReport :=
      ⟨[⟨id 1, tag⟩, ⟨id 1, tag⟩, ⟨id 3, tag⟩], [⟨id 2, tag⟩, ⟨id 3, tag⟩, ⟨id 4, tag⟩]⟩
    let pending : List Store.Interruption := [⟨.unindexIfDead, 2, [], some .statement⟩]
    let left := (repair (trial ⟨6, rfl⟩) given).outcome ⟨⟨s, pending⟩, []⟩
    left.2.state.store.index.map (·.sequence) = [1, 3] ∧ Keyed s ∧ OnlyFailures pending ∧
    Harmless s given left.2.state.store ∧ Ended s given left.1 left.2.made left.2.state.store := by
  intro id tag s given pending left
  have keyed : Keyed s := (Store.Reached.empty.runAll _ _ (by decide)).sound.keyed
  have quiet : OnlyFailures pending := by simp [OnlyFailures, pending]
  have met : (repair (trial ⟨6, rfl⟩) given).outcome ⟨⟨s, pending⟩, []⟩ = (left.1, left.2) :=
    (Prod.eta _).symm
  exact ⟨by decide +kernel, keyed, quiet, outdated_repair_harmless keyed quiet met⟩

end RecordLedger.Ledger
