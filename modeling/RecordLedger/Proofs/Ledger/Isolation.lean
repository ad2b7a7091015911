import RecordLedger.Proofs.Ledger.Likeness
import RecordLedger.Proofs.Ledger.Numbers

/-! Records do not interfere. A run is compared with the calls of the run that are about some
records only: what these calls answer, and what readers show of the records afterwards, is the same,
up to the numbers, which count over all records. -/
namespace RecordLedger.Ledger

open Store (Logged Sound)

def answers : List (Instant × Change) → Store → List (RecordId × Except Error Version)
  | [], _ => []
  | (now, c) :: rest, s =>
    (c.id, ((c.perform (Store.answer now)).outcome s).1) ::
      answers rest ((c.perform (Store.answer now)).outcome s).2

def final : List (Instant × Change) → Store → Store
  | [], s => s
  | (now, c) :: rest, s => final rest ((c.perform (Store.answer now)).outcome s).2

def about (own : RecordId → Bool) (calls : List (Instant × Change)) : List (Instant × Change) :=
  calls.filter fun call => own call.2.id

def made (met : List (RecordId × Except Error Version)) : List Version :=
  met.filterMap fun answer => answer.2.toOption

theorem made_cons (answer : RecordId × Except Error Version)
    (met : List (RecordId × Except Error Version)) :
    made (answer :: met) = answer.2.toOption.toList ++ made met := by
  rw [made, List.filterMap_cons]
  cases answer.2 <;> rfl

def forget (answer : RecordId × Except Error Version) : RecordId × Except Error Version :=
  (answer.1, answer.2.map Version.unnumbered)

variable {s s' t : Store} {log log' : List Version} {now : Instant} {c : Change} {id : RecordId}
  {tag : Tag} {payload : String} {own : RecordId → Bool} {calls : List (Instant × Change)}

def places (s : Store) : List (String × String) := s.index.map fun row => (row.id, row.tag)

def named (own : RecordId → Bool) (text : String) : Bool :=
  (RecordId.parse text).toOption.any own

def ownPlaces (own : RecordId → Bool) (s : Store) : List (String × String) :=
  (places s).filter fun place => named own place.1

@[simp] theorem named_text (own : RecordId → Bool) (id : RecordId) :
    named own id.text = own id := by
  rw [named, RecordId.parse_text]
  rfl

theorem isIndexed_eq_any (s : Store) (text : String) :
    s.isIndexed text = (places s).any (·.1 == text) := by
  rw [Store.isIndexed, places, List.any_map]
  rfl

theorem places_grown (s : Store) (now : Instant) (id : RecordId) (tag : Tag) (payload : String) :
    places (grown s now id tag payload) =
      if payload = tombstone then (places s).filter (·.1 != id.text)
      else if s.isIndexed id.text then places s
      else places s ++ [(id.text, tag.text)] := by
  rw [places, grown]
  split
  · rw [places, List.filter_map]
    rfl
  · split
    · rfl
    · rw [List.map_append]
      rfl

theorem ownPlaces_grown (outside : own id = false) (s : Store) (now : Instant) (tag : Tag)
    (payload : String) : ownPlaces own (grown s now id tag payload) = ownPlaces own s := by
  rw [ownPlaces, places_grown]
  split
  · rw [List.filter_filter]
    refine List.filter_congr fun place _ => ?_
    by_cases same : place.1 = id.text
    · simp [same, outside]
    · simp [same]
  · split
    · rfl
    · simp [ownPlaces, outside]

theorem isIndexed_of_ownPlaces (inside : own id = true) (same : ownPlaces own s = places s') :
    s'.isIndexed id.text = s.isIndexed id.text := by
  rw [isIndexed_eq_any, isIndexed_eq_any, ← same, ownPlaces, List.any_filter]
  congr 1
  funext place
  by_cases names : place.1 = id.text
  · simp [names, inside]
  · simp [names]

theorem ownPlaces_grown_own (inside : own id = true) (same : ownPlaces own s = places s') :
    ownPlaces own (grown s now id tag payload) = places (grown s' now id tag payload) := by
  rw [ownPlaces, places_grown, places_grown, isIndexed_of_ownPlaces inside same, ← same, ownPlaces]
  split
  · rw [List.filter_filter, List.filter_filter]
    simp only [Bool.and_comm]
  · split
    · rfl
    · simp [inside]

/-- `s'` holds what `s` holds of some records and nothing else, up to the numbers. -/
structure Twin (own : RecordId → Bool) (log log' : List Version) (s s' : Store) : Prop where
  steady : Steady s
  steady' : Steady s'
  logged : Logged log s
  logged' : Logged log' s'
  frugal : Frugal s
  frugal' : Frugal s'
  versions : (log.filter fun v => own v.id).map Version.unnumbered = log'.map Version.unnumbered
  rows : ownPlaces own s = places s'

theorem empty_twin (own : RecordId → Bool) : Twin own [] [] .empty .empty :=
  ⟨⟨.empty, empty_consistent⟩, ⟨.empty, empty_consistent⟩, Store.empty_logged, Store.empty_logged,
    empty_frugal, empty_frugal, rfl, rfl⟩

/-- The twin has no more versions. -/
theorem Twin.length_le (twin : Twin own log log' s s') : s'.versions.length ≤ s.versions.length := by
  have same := congrArg List.length twin.versions
  rw [List.length_map, List.length_map] at same
  rw [twin.logged.rows, twin.logged'.rows, List.length_map, List.length_map, ← same]
  exact List.length_filter_le ..

theorem Twin.agree (twin : Twin own log log' s s') (inside : own id = true) :
    Agree id log log' := by
  have kept : entries (log.filter fun v => own v.id) id = entries log id := by
    rw [entries, entries, List.filter_filter]
    refine List.filter_congr fun v _ => ?_
    by_cases names : v.id = id
    · simp [names, inside]
    · simp [names]
  rw [Agree, ← kept, ← entries_unnumbered, twin.versions, entries_unnumbered]

theorem Change.steady {r : Except Error Version} (steady : Steady s)
    (met : (c.perform (Store.answer now)).outcome s = (r, t))
    (undisturbed : ∀ f, r ≠ .error (.store f)) : Steady t := by
  have step : Advance s ⟨now, .change c, r, t⟩ := ⟨met, undisturbed⟩
  exact step.steady steady

theorem Twin.apart {r : Except Error Version} (twin : Twin own log log' s s')
    (outside : own c.id = false) (met : (c.perform (Store.answer now)).outcome s = (r, t))
    (undisturbed : ∀ f, r ≠ .error (.store f)) :
    Twin own (log ++ r.toOption.toList) log' t s' := by
  have steady := Change.steady twin.steady met undisturbed
  rcases Change.grows twin.logged met undisturbed with ⟨e, _, rfl, rfl⟩ |
    ⟨payload, room, _, rfl, rfl⟩
  · simpa [Except.toOption] using twin
  · refine ⟨steady, twin.steady', twin.logged.push (room.inserted twin.logged.numbered.start),
      twin.logged', twin.frugal.grown room, twin.frugal', ?_, ?_⟩
    · have out : [room.version].filter (fun v => own v.id) = [] :=
        List.filter_cons_of_neg (by simp [Room.version, outside])
      rw [List.filter_append]
      change ((_ ++ [room.version].filter _).map _) = _
      rw [out, List.append_nil, twin.versions]
    · rw [ownPlaces_grown outside, twin.rows]

/-- A change of one of the records has the same outcome in the twin, up to the number. -/
theorem Twin.along {r : Except Error Version} (twin : Twin own log log' s s')
    (inside : own c.id = true) (met : (c.perform (Store.answer now)).outcome s = (r, t))
    (undisturbed : ∀ f, r ≠ .error (.store f)) :
    ∃ r' t', (c.perform (Store.answer now)).outcome s' = (r', t') ∧
      r.map Version.unnumbered = r'.map Version.unnumbered ∧
      Twin own (log ++ r.toOption.toList) (log' ++ r'.toOption.toList) t t' := by
  have agree := twin.agree inside
  have performed := c.perform_logged twin.logged' now
  rw [← agree.due] at performed
  have steady := Change.steady twin.steady met undisturbed
  rcases Change.grows twin.logged met undisturbed with ⟨e, due, rfl, rfl⟩ |
    ⟨payload, room, due, rfl, rfl⟩
  · rw [due] at performed
    refine ⟨.error e, s', performed, rfl, ?_⟩
    simpa [Except.toOption] using twin
  · have stamps := agree.stamp twin.logged twin.logged' now
    have taken : s'.takes (s'.newRow now c.id c.tag payload (s'.lastVersion + 1)) = true := by
      obtain ⟨count, bytes⟩ := Store.takes_iff.mp room.taken
      refine Store.takes_iff.mpr ⟨Nat.lt_of_le_of_lt twin.length_le count, ?_⟩
      simp only [Store.newRow, Store.VersionRow.bytes, ← stamps] at bytes ⊢
      exact bytes
    have room' : Room s' now c.id c.tag payload :=
      ⟨twin.frugal'.numbers, taken, fun _ => twin.frugal'.places, stamps ▸ room.fits⟩
    simp only [due] at performed
    rw [append_room room'] at performed
    have same : room.version.unnumbered = room'.version.unnumbered := by
      simp only [Room.version, Version.unnumbered, stamps]
    have steady' := Change.steady twin.steady' performed fun f failed => by cases failed
    refine ⟨_, _, performed, congrArg Except.ok same, steady, steady',
      twin.logged.push (room.inserted twin.logged.numbered.start),
      twin.logged'.push (room'.inserted twin.logged'.numbered.start),
      twin.frugal.grown room, twin.frugal'.grown room', ?_, ownPlaces_grown_own inside twin.rows⟩
    have kept : [room.version].filter (fun v => own v.id) = [room.version] :=
      List.filter_cons_of_pos inside
    rw [List.filter_append, List.map_append, List.map_append, twin.versions]
    change _ ++ ([room.version].filter _).map _ = _
    rw [kept]
    exact congrArg (_ ++ [·]) same

theorem answers_cons {r : Except Error Version} (rest : List (Instant × Change))
    (met : (c.perform (Store.answer now)).outcome s = (r, t)) :
    answers ((now, c) :: rest) s = (c.id, r) :: answers rest t ∧
      final ((now, c) :: rest) s = final rest t := by
  rw [answers, final, met]
  exact ⟨rfl, rfl⟩

theorem Twin.run (twin : Twin own log log' s s')
    (undisturbed : ∀ answer ∈ answers calls s, ∀ f, answer.2 ≠ .error (.store f)) :
    ((answers calls s).filter fun answer => own answer.1).map forget =
        (answers (about own calls) s').map forget ∧
      Twin own (log ++ made (answers calls s)) (log' ++ made (answers (about own calls) s'))
        (final calls s) (final (about own calls) s') := by
  -- Both logs grow with the calls, so the twin that carries the induction is one of any logs.
  induction calls generalizing log log' s s' with
  | nil => simpa [answers, about, made, final] using twin
  | cons call rest ih =>
    obtain ⟨now, c⟩ := call
    cases met : (c.perform (Store.answer now)).outcome s with
    | mk r t =>
      obtain ⟨listed, left⟩ := answers_cons rest met
      rw [listed] at undisturbed
      obtain ⟨first, others⟩ := List.forall_mem_cons.mp undisturbed
      rw [listed, left, made_cons, ← List.append_assoc]
      cases side : own c.id with
      | false =>
        have skipped : about own ((now, c) :: rest) = about own rest :=
          List.filter_cons_of_neg (by simp [side])
        rw [skipped, List.filter_cons_of_neg (by simp [side])]
        exact ih (twin.apart side met first) others
      | true =>
        have kept : about own ((now, c) :: rest) = (now, c) :: about own rest :=
          List.filter_cons_of_pos side
        obtain ⟨r', t', met', alike, twins⟩ := twin.along side met first
        obtain ⟨listed', left'⟩ := answers_cons (about own rest) met'
        obtain ⟨same, twins⟩ := ih twins others
        rw [kept, listed', left', made_cons, ← List.append_assoc,
          List.filter_cons_of_pos (by exact side), List.map_cons, List.map_cons, same, forget,
          forget, alike]
        exact ⟨rfl, twins⟩

/-- An index row belongs to a record of the log, under the tag of that record. -/
theorem row_entry {row : Store.IndexRow} (steady : Steady s) (logged : Logged log s)
    (listed : row ∈ s.indexRows tag) : ∃ v ∈ log, v.id.text = row.id ∧ v.tag = tag := by
  obtain ⟨stored, tagged⟩ := Store.mem_indexRows.mp listed
  obtain ⟨r, latest, _, same⟩ := steady.consistent.row_latest stored
  obtain ⟨v, member, rfl⟩ := logged.mem_versions.mp latest.stored
  exact ⟨v, member, latest.names, Tag.text_injective _ _ (same.symm.trans tagged)⟩

theorem indexRows_places (sound : Sound s) (tag : Tag) :
    (s.indexRows tag).map (·.id) =
      (((places s).filter (·.2 == tag.text)).map (·.1)).reverse := by
  rw [sound.indexRows_eq, List.map_reverse, places, List.filter_map, List.map_map]
  rfl

theorem Twin.alike (twin : Twin own log log' s s')
    (whole : ∀ v ∈ log, v.tag = tag → own v.id = true) : Alike tag log log' s s' := by
  have inside : ∀ row ∈ s.indexRows tag, named own row.id = true := by
    intro row listed
    obtain ⟨v, member, names, tagged⟩ := row_entry twin.steady twin.logged listed
    rw [← names, named_text]
    exact whole v member tagged
  have below {u : Store} (sound : Sound u) (frugal : Frugal u) :
      ∀ row ∈ u.indexRows tag, row.sequence < Word.maxSigned :=
    fun row listed => frugal.below sound row (Store.mem_indexRows.mp listed).1
  refine ⟨twin.steady, twin.steady', twin.logged, twin.logged', below twin.steady.sound twin.frugal,
    below twin.steady'.sound twin.frugal', ?_, ?_⟩
  · rw [indexRows_places twin.steady.sound, indexRows_places twin.steady'.sound, ← twin.rows,
      ownPlaces, List.filter_filter]
    congr 2
    refine List.filter_congr fun place member => ?_
    obtain ⟨row, stored, rfl⟩ := List.mem_map.mp member
    by_cases tagged : row.tag = tag.text
    · simp [tagged, inside row (Store.mem_indexRows.mpr ⟨stored, tagged⟩)]
    · simp [tagged]
  · intro row listed id names
    have own_id := inside row listed
    rw [names, named_text] at own_id
    exact twin.agree own_id

/-- What the calls about some records answer and leave behind does not depend on the other calls. -/
structure Isolated (own : RecordId → Bool) (calls : List (Instant × Change)) : Prop where
  answered : ((answers calls .empty).filter fun answer => own answer.1).map forget =
    (answers (about own calls) .empty).map forget
  read : ∀ now id tag, own id = true →
    ((read (Store.answer now) id tag).outcome (final calls .empty)).1.map Version.unnumbered =
      ((Ledger.read (Store.answer now) id tag).outcome (final (about own calls) .empty)).1.map
        Version.unnumbered
  history : ∀ now id, own id = true →
    ((history (Store.answer now) id).outcome (final calls .empty)).1.map ResultSet.unnumbered =
      ((Ledger.history (Store.answer now) id).outcome (final (about own calls) .empty)).1.map
        ResultSet.unnumbered
  /-- Pages of a tag that only those records have are the same, too. -/
  fetched : ∀ tag, (∀ v ∈ made (answers calls .empty), v.tag = tag → own v.id = true) →
    ∀ now first before, first ≤ Word.maxUnsigned →
    ((fetch (Store.answer now) tag first before).outcome (final calls .empty)).1.map
        ResultSet.unnumbered =
      ((fetch (Store.answer now) tag first before).outcome (final (about own calls) .empty)).1.map
        ResultSet.unnumbered

/-- As long as no call on the store fails, records do not interfere. -/
theorem records_isolated (own : RecordId → Bool)
    (undisturbed : ∀ answer ∈ answers calls .empty, ∀ f, answer.2 ≠ .error (.store f)) :
    Isolated own calls := by
  obtain ⟨answered, twin⟩ := (empty_twin own).run undisturbed
  refine ⟨answered, fun now id tag inside => ?_, fun now id inside => ?_,
    fun tag whole now first before fits => ?_⟩
  · exact (twin.agree inside).read twin.logged twin.logged' now tag
  · exact (twin.agree inside).history twin.logged twin.logged' now
  · exact (twin.alike whole).fetch_eq now fits

/-- Two records take turns. One is written, deleted and restored with the clock set back, and one of
its writes is refused; the other is written twice. The first record has the numbers 1, 3 and 5 then,
and 1, 2 and 3 without the second one; all else is the same. -/
theorem interleaved_isolated :
    let own : RecordId → Bool := fun id => id = default
    let tag : Tag := ⟨"app.note", by decide⟩
    let other : Tag := ⟨"app.other", by decide⟩
    let b : RecordId := ⟨List.replicate 16 1, rfl⟩
    let interleaved : List (Instant × Change) := [
      (⟨5, rfl⟩, .write default ⟨some default, tag, .ok "[1]"⟩),
      (⟨9, rfl⟩, .write default ⟨some b, other, .ok "[2]"⟩),
      (⟨4, rfl⟩, .delete default tag),
      (⟨3, rfl⟩, .write default ⟨some default, other, .ok "[3]"⟩),
      (⟨2, rfl⟩, .write default ⟨some b, other, .ok "[4]"⟩),
      (⟨1, rfl⟩, .restore default tag ⟨5, rfl⟩)]
    let told := fun calls => (made (answers calls .empty)).map fun v =>
      (v.sequence, v.payload, v.timestamp.micros)
    told interleaved = [(1, "[1]", 5), (2, "[2]", 9), (3, tombstone, 6), (4, "[4]", 10),
      (5, "[1]", 7)] ∧
    told (about own interleaved) = [(1, "[1]", 5), (2, tombstone, 6), (3, "[1]", 7)] ∧
    (∀ answer ∈ answers interleaved .empty, ∀ f, answer.2 ≠ .error (.store f)) ∧
    Isolated own interleaved ∧
    ∀ now, ((fetch (Store.answer now) tag 5 none).outcome (final interleaved .empty)).1.map
        ResultSet.unnumbered =
      ((fetch (Store.answer now) tag 5 none).outcome
        (final (about own interleaved) .empty)).1.map ResultSet.unnumbered := by
  intro own tag other b interleaved told
  have passed : (answers interleaved .empty).all fun answer =>
      match answer.2 with
      | .error (.store _) => false
      | _ => true := by decide
  have undisturbed : ∀ answer ∈ answers interleaved .empty, ∀ f, answer.2 ≠ .error (.store f) := by
    intro answer member f failed
    have fine := List.all_eq_true.mp passed answer member
    rw [failed] at fine
    cases fine
  have isolated := records_isolated own undisturbed
  have whole : ∀ v ∈ made (answers interleaved .empty), v.tag = tag → own v.id = true := by decide
  exact ⟨by decide, by decide, undisturbed, isolated,
    fun now => isolated.fetched tag whole now 5 none (by decide)⟩

end RecordLedger.Ledger
