import RecordLedger.Proofs.Ledger.Append

/-! A ledger as a log: what a change does, and what reading shows, said of the versions that were
appended so far. The order of the calls and the order of the timestamps agree on each record, so the
lookups before an append and the readers after it all see the same log. -/
namespace RecordLedger.Ledger

open Store (Logged Inserted)

def Change.due (log : List Version) : Change → Except Error String
  | .write fresh draft =>
    match (entries log (draft.id.getD fresh)).head? with
    | none => draft.payload.mapError .unencodable
    | some first =>
      if first.tag = draft.tag then draft.payload.mapError .unencodable
      else .error (.otherTag (draft.id.getD fresh) first.tag draft.tag)
  | .delete id tag =>
    if (entries log id).any (·.tag = tag) then .ok tombstone
    else .error (.missing (.record tag id))
  | .restore id tag at_ =>
    match (entries log id).find? fun v => v.tag = tag ∧ v.timestamp = at_ with
    | none => .error (.missing (.versionAt tag id at_))
    | some v => .ok v.payload

def OneTag (log : List Version) : Prop := ∀ u ∈ log, ∀ v ∈ log, u.id = v.id → u.tag = v.tag

variable {s t : Store} {log : List Version} {now : Instant} {c : Change}

theorem Change.settle_eq (logged : Logged log s) (now : Instant) (c : Change) :
    ∃ found, Store.answer now c.lookup s = (.ok found, s) ∧ c.settle found = c.due log := by
  cases c with
  | write fresh draft =>
    refine ⟨_, congrArg (·, s) (logged.tagOf_eq _), ?_⟩
    simp only [settle, due]
    cases (entries log (draft.id.getD fresh)).head? with
    | none => rfl
    | some first => simp
  | delete id tag =>
    refine ⟨_, congrArg (·, s) (logged.latestVersion_eq id tag), ?_⟩
    simp only [due]
    cases search : (entries log id).reverse.find? (·.tag = tag) with
    | none =>
      have absent : (entries log id).any (·.tag = tag) = false := by
        simpa [List.find?_eq_none] using search
      rw [absent]
      rfl
    | some v =>
      have present : (entries log id).any (·.tag = tag) = true := by
        have member := List.mem_reverse.mp (List.mem_of_find?_eq_some search)
        exact List.any_eq_true.mpr ⟨v, member, by simpa using List.find?_some search⟩
      rw [present]
      rfl
  | restore id tag at_ =>
    refine ⟨_, congrArg (·, s) (logged.versionAt_eq id tag at_), ?_⟩
    simp only [due]
    cases (entries log id).find? fun v => v.tag = tag ∧ v.timestamp = at_ <;> rfl

/-- A change does what the log demands. -/
theorem Change.perform_logged (logged : Logged log s) (now : Instant) (c : Change) :
    (c.perform (Store.answer now)).outcome s =
      match c.due log with
      | .error e => (.error e, s)
      | .ok payload => (append (Store.answer now) c.id c.tag payload).outcome s := by
  obtain ⟨found, answered, settled⟩ := c.settle_eq logged now
  rw [c.perform_eq, Action.outcome_call_bind answered, settled]
  cases c.due log <;> rfl

/-- A change that no failing call disturbs is refused and changes nothing, or meets no limit and
appends what the log demands. -/
theorem Change.grows {r : Except Error Version} (logged : Logged log s)
    (met : (c.perform (Store.answer now)).outcome s = (r, t))
    (undisturbed : ∀ f, r ≠ .error (.store f)) :
    (∃ e, c.due log = .error e ∧ r = .error e ∧ t = s) ∨
    ∃ payload, ∃ room : Room s now c.id c.tag payload, c.due log = .ok payload ∧
      r = .ok (room.version) ∧ t = grown s now c.id c.tag payload := by
  rw [c.perform_logged logged] at met
  cases due : c.due log with
  | error e =>
    rw [due] at met
    cases met
    exact .inl ⟨e, rfl, rfl, rfl⟩
  | ok payload =>
    simp only [due] at met
    cases r with
    | error e =>
      obtain ⟨f, rfl⟩ := append_error met
      exact absurd rfl (undisturbed f)
    | ok v =>
      have room := room_of_append met
      rw [append_room room] at met
      cases met
      exact .inr ⟨payload, room, rfl, rfl, rfl⟩

/-- A record keeps its tag: a change that is not refused has the tag of all versions so far. -/
theorem Change.due_tag {payload : String} (oneTag : OneTag log) (due : c.due log = .ok payload) :
    ∀ v ∈ entries log c.id, v.tag = c.tag := by
  have same : ∀ w ∈ entries log c.id, w.tag = c.tag → ∀ v ∈ entries log c.id, v.tag = c.tag := by
    intro w memberW tagged v memberV
    obtain ⟨storedW, namesW⟩ := mem_entries.mp memberW
    obtain ⟨storedV, namesV⟩ := mem_entries.mp memberV
    exact (oneTag v storedV w storedW (namesV.trans namesW.symm)).trans tagged
  cases c with
  | write fresh draft =>
    simp only [Change.due] at due
    split at due
    · next none_yet =>
      rw [List.head?_eq_none_iff] at none_yet
      intro v member
      rw [Change.id, none_yet] at member
      cases member
    · next first found =>
      split at due
      · next tagged => exact same first (List.mem_of_mem_head? found) tagged
      · cases due
  | delete id tag =>
    simp only [Change.due] at due
    split at due
    · next present =>
      obtain ⟨w, member, tagged⟩ := List.any_eq_true.mp present
      exact same w member (of_decide_eq_true tagged)
    · cases due
  | restore id tag at_ =>
    simp only [Change.due] at due
    split at due
    · cases due
    · next w found =>
      have fields : w.tag = tag ∧ w.timestamp = at_ := by simpa using List.find?_some found
      exact same w (List.mem_of_find?_eq_some found) fields.1

inductive Changed (now : Instant) (log : List Version) (s : Store) (c : Change) :
    Except Error Version → Store → Prop
  | refused (e : Error) (due : c.due log = .error e) : Changed now log s c (.error e) s
  | appended {u : Store} (v : Version) (due : c.due log = .ok v.payload) (names : v.id = c.id)
      (tagged : v.tag = c.tag) (inserted : Inserted now s v u) : Changed now log s c (.ok v) u

/-- An undisturbed change leaves the log as it is or adds one version to it. -/
theorem Change.changed {r : Except Error Version} (logged : Logged log s)
    (met : (c.perform (Store.answer now)).outcome s = (r, t))
    (undisturbed : ∀ f, r ≠ .error (.store f)) : Changed now log s c r t := by
  rcases Change.grows logged met undisturbed with ⟨e, due, rfl, rfl⟩ |
    ⟨payload, room, due, rfl, rfl⟩
  · exact .refused e due
  · exact .appended _ due rfl rfl (room.inserted logged.numbered.start)

theorem OneTag.push {v : Version} (oneTag : OneTag log)
    (tagged : ∀ u ∈ entries log v.id, u.tag = v.tag) : OneTag (log ++ [v]) := by
  intro a memberA b memberB names
  rcases List.mem_append.mp memberA with oldA | newA <;>
    rcases List.mem_append.mp memberB with oldB | newB
  · exact oneTag a oldA b oldB names
  · obtain rfl := List.mem_singleton.mp newB
    exact tagged a (mem_entries.mpr ⟨oldA, names⟩)
  · obtain rfl := List.mem_singleton.mp newA
    exact (tagged b (mem_entries.mpr ⟨oldB, names.symm⟩)).symm
  · rw [List.mem_singleton.mp newA, List.mem_singleton.mp newB]

theorem history_logged (logged : Logged log s) (now : Instant) (id : RecordId) :
    (history (Store.answer now) id).outcome s =
      (.ok (.unpaginated (entries log id).reverse), s) := by
  have answered : Store.answer now (.versions id) s = (.ok (entries log id).reverse, s) :=
    congrArg (·, s) (logged.versionsOf_eq id)
  rw [history, Action.outcome_call_bind answered]
  rfl

theorem read_found (logged : Logged log s) (now : Instant) (id : RecordId) (tag : Tag) :
    (read (Store.answer now) id tag).outcome s =
      (match (entries log id).reverse.find? (·.tag = tag) with
        | none => .error (.missing (.record tag id))
        | some v => .ok v, s) := by
  have answered : Store.answer now (.latestVersion id tag) s = (.ok _, s) :=
    congrArg (·, s) (logged.latestVersion_eq id tag)
  rw [read, Action.outcome_call_bind answered]
  cases (entries log id).reverse.find? (·.tag = tag) <;> rfl

theorem read_logged (logged : Logged log s) (oneTag : OneTag log) (now : Instant) (id : RecordId)
    (tag : Tag) :
    (read (Store.answer now) id tag).outcome s =
      (match (entries log id).getLast? with
        | none => .error (.missing (.record tag id))
        | some v => if v.tag = tag then .ok v else .error (.missing (.record tag id)), s) := by
  rw [read_found logged]
  cases last : (entries log id).getLast? with
  | none =>
    rw [List.getLast?_eq_none_iff.mp last]
    rfl
  | some v =>
    obtain ⟨front, shape⟩ := List.getLast?_eq_some_iff.mp last
    by_cases tagged : v.tag = tag
    · have found : (entries log id).reverse.find? (·.tag = tag) = some v := by
        rw [shape, List.reverse_append]
        simp [tagged]
      rw [found]
      simp [tagged]
    · have absent : (entries log id).reverse.find? (·.tag = tag) = none := by
        refine List.find?_eq_none.mpr fun u member same => tagged ?_
        obtain ⟨storedU, namesU⟩ := mem_entries.mp (List.mem_reverse.mp member)
        obtain ⟨storedV, namesV⟩ := mem_entries.mp (List.mem_of_getLast? last)
        rw [← oneTag u storedU v storedV (namesU.trans namesV.symm)]
        exact of_decide_eq_true same
      rw [absent]
      simp [tagged]

theorem scan_logged [Decodable α] {x : α} (logged : Logged log s) (now : Instant)
    (decoded : v.decode? (created log v) = some x) :
    (scan (Store.answer now) v).outcome s = (.ok x, s) := by
  have answered : Store.answer now (.earliestTimestamp v.id) s = (.ok _, s) :=
    congrArg (·, s) (logged.earliestTimestamp_eq v.id)
  rw [scan, Action.outcome_call_bind answered]
  rw [created] at decoded
  rw [decoded]
  rfl

/-- A payload that is no value of the kind is an error, and one of the payload alone. -/
theorem scan_undecodable [Decodable α] (logged : Logged log s) (now : Instant)
    (broken : Decodable.decode? (α := α) v.payload = none) :
    (scan (α := α) (Store.answer now) v).outcome s =
      (.error (.undecodable v.tag v.id v.sequence), s) := by
  have answered : Store.answer now (.earliestTimestamp v.id) s = (.ok _, s) :=
    congrArg (·, s) (logged.earliestTimestamp_eq v.id)
  rw [scan, Action.outcome_call_bind answered, Version.decode?, broken]
  rfl

end RecordLedger.Ledger
