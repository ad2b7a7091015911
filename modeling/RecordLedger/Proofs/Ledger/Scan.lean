import RecordLedger.Proofs.Ledger.Appearance

/-! Decoded metadata. When a record was created is not stored: each decoding looks up the record's
least timestamp. As appends only add greater ones, whatever the clock reads, the answer is the same
at every point of a session that has the version. -/
namespace RecordLedger.Ledger

open Store (Logged)

def Turn.returned : Turn → List Version
  | ⟨_, .operation (.change _), .ok v, _⟩ => [v]
  | ⟨_, .operation (.read ..), .ok v, _⟩ => [v]
  | ⟨_, .operation (.history _), .ok found, _⟩ => found.remaining
  | ⟨_, .operation (.fetch ..), .ok found, _⟩ => found.remaining
  | ⟨_, .operation (.fetchIn _), .ok found, _⟩ => found.remaining
  | _ => []

structure Dated (first v : Version) (s : Store) : Prop where
  scanned : ∀ (now : Instant) {α : Type} [Decodable α] {body : α},
    Decodable.decode? v.payload = some body →
    (scan (Store.answer now) v).outcome s =
      (.ok (Decodable.place ⟨some v.id, v.sequence, first.timestamp, v.timestamp⟩ body), s)
  ordered : first.timestamp.micros ≤ v.timestamp.micros
  same : first.timestamp = v.timestamp ↔ v = first

variable {s t : Store} {past : List Version} {earlier later : List Turn} {e : Turn}
  {v first : Version}

theorem dated_of_mem (logged : Logged past s) (head : (entries past v.id).head? = some first)
    (member : v ∈ past) : Dated first v s := by
  obtain ⟨rest, shape⟩ := List.head?_eq_some_iff.mp head
  have later : v = first ∨ first.timestamp.micros < v.timestamp.micros := by
    have listed : v ∈ entries past v.id := mem_entries.mpr ⟨member, rfl⟩
    have increasing := logged.entries_later v.id
    rw [shape] at listed increasing
    exact (List.mem_cons.mp listed).imp_right ((List.pairwise_cons.mp increasing).1 v)
  refine ⟨fun now α _ body decoded => scan_logged logged now ?_, ?_, ?_⟩
  · rw [Version.decode?, decoded, created, head]
    rfl
  · rcases later with rfl | less
    · exact Int.le_refl _
    · exact Int.le_of_lt less
  · refine ⟨fun equal => later.resolve_right fun less => ?_, fun equal => by rw [equal]⟩
    rw [equal] at less
    exact Int.lt_irrefl _ less

/-- What is returned has been appended before or by the turn itself. -/
theorem Turn.Follows.returned_mem (follows : e.Follows s) (logged : Logged past s)
    (returned : v ∈ e.returned) : v ∈ past ++ e.appended?.toList := by
  obtain ⟨now, request, outcome, after⟩ := e
  cases request with
  | operation o =>
    cases outcome with
    | error f => cases o <;> cases returned
    | ok answer =>
      have met : (o.perform (Store.answer now)).outcome s = (.ok answer, after) := follows.met
      cases o with
      | change c => exact List.mem_append_right _ returned
      | read id tag =>
        obtain rfl := List.mem_singleton.mp returned
        have found := (read_found logged now id tag).symm.trans met
        split at found
        · cases found
        · next w last =>
          cases found
          exact List.mem_append_left _
            (mem_entries.mp (List.mem_reverse.mp (List.mem_of_find?_eq_some last))).1
      | history id =>
        cases (history_logged logged now id).symm.trans met
        exact List.mem_append_left _ (mem_entries.mp (List.mem_reverse.mp returned)).1
      | fetch tag number before =>
        exact List.mem_append_left _ (fetch_mem logged met v returned)
      | fetchIn ids =>
        rcases Action.bind_cases met with ⟨_, _, failed⟩ | ⟨vs, u, found, rest⟩
        · cases failed
        · cases rest
          exact List.mem_append_left _ (latestInOrder_mem logged found v returned)
      | _ => cases returned
  | _ => cases returned

/-- A log keeps its first entry of a record as it grows. -/
theorem head_entries_append {log : List Version} {id : RecordId} (more : List Version)
    (head : (entries log id).head? = some first) :
    (entries (log ++ more) id).head? = some first := by
  rw [entries_append, List.head?_append, head]
  rfl

/-- From the turn that returned it on, a version is decoded with the first version's timestamp as
the time of creation, as all versions of its record are. -/
theorem returned_dated (session : Session (earlier ++ e :: later) s) (returned : v ∈ e.returned) :
    ∃ first, (entries (log (earlier ++ [e])) v.id).head? = some first ∧ Dated first v s ∧
      ∀ w ∈ log (earlier ++ e :: later), w.id = v.id → Dated first w s := by
  rw [List.append_cons earlier e later] at session ⊢
  have part : earlier ++ [e] <+: earlier ++ [e] ++ later := List.prefix_append ..
  have whole : log (earlier ++ [e] ++ later) = log (earlier ++ [e]) ++ log later :=
    List.filterMap_append
  have before := session.upto ((List.prefix_append ..).trans part)
  have known : v ∈ log (earlier ++ [e]) := by
    rw [log_snoc]
    exact (session.follows part).returned_mem before.logged returned
  obtain ⟨first, head⟩ : ∃ first, (entries (log (earlier ++ [e])) v.id).head? = some first :=
    Option.ne_none_iff_exists'.mp fun none_found => by
      have listed : v ∈ entries (log (earlier ++ [e])) v.id := mem_entries.mpr ⟨known, rfl⟩
      rw [List.head?_eq_none_iff.mp none_found] at listed
      cases listed
  have kept := head_entries_append (log later) head
  rw [← whole] at kept
  have dated : ∀ w ∈ log (earlier ++ [e] ++ later), w.id = v.id → Dated first w s :=
    fun w member names => dated_of_mem session.logged (names ▸ kept) member
  exact ⟨first, head, dated v (whole ▸ List.mem_append_left _ known) rfl, dated⟩

/-- A record is written, deleted and restored with the clock set back each time, returned once more
and then overwritten. Its payload is a node of another record. -/
def rewriting : List (Instant × Operation) :=
  [(⟨6, rfl⟩, .change (.write default ⟨none, memoTag, .ok "[null,9,9,9]"⟩)),
    (⟨4, rfl⟩, .change (.delete default memoTag)),
    (⟨2, rfl⟩, .change (.restore default memoTag ⟨6, rfl⟩)),
    (.epoch, .fetchIn [default]),
    (.epoch, .change (.write default ⟨some default, memoTag, .ok "1"⟩))]

theorem restored_dated :
    let turns := (play rewriting .empty).map Turn.ofEvent
    let s := left .empty (play rewriting .empty)
    let v : Version := ⟨3, default, memoTag, "[null,9,9,9]", ⟨8, rfl⟩⟩
    Session turns s ∧ (∃ earlier e later, turns = earlier ++ e :: later ∧ v ∈ e.returned) ∧
      (scan (Store.answer .epoch) v).outcome s =
        (.ok (⟨some default, 3, ⟨6, rfl⟩, ⟨8, rfl⟩⟩ : Node), s) := by
  intro turns s v
  have run := play_run rewriting .empty (by decide +kernel)
  have session : Session turns s := run.session .nil
  have split : turns = turns.take 3 ++ turns[3] :: turns.drop 4 := by
    rw [← List.drop_eq_getElem_cons, List.take_append_drop]
  have returned : v ∈ turns[3].returned := by decide +kernel
  have decoded : Decodable.decode? v.payload = some (⟨none, 9, ⟨9, rfl⟩, ⟨9, rfl⟩⟩ : Node) := by
    decide +kernel
  obtain ⟨first, head, dated, _⟩ := returned_dated (split ▸ session) returned
  have own : (entries (log (turns.take 3 ++ [turns[3]])) v.id).head? =
      some ⟨1, default, v.tag, "[null,9,9,9]", ⟨6, rfl⟩⟩ := by decide +kernel
  cases own.symm.trans head
  exact ⟨session, ⟨_, _, _, split, returned⟩, dated.scanned .epoch decoded⟩

def begun : Store := left .empty (play (rewriting.take 1) .empty)

def predated : Store :=
  { begun with
    versions := begun.versions ++ [⟨2, (default : RecordId).text, memoTag.text, "2", 0⟩]
    lastVersion := 2 }

/-- A statement that passes for a read changes when the record was created. -/
theorem predated_not_dated :
    let turns := (play (rewriting.take 1) .empty).map Turn.ofEvent
    let v : Version := ⟨1, default, memoTag, "[null,9,9,9]", ⟨6, rfl⟩⟩
    Session turns begun ∧ (∃ e ∈ turns, v ∈ e.returned) ∧
      (query (Store.answer .epoch) Query.backdating []).outcome begun =
        (.ok (.unpaginated []), predated) ∧
      ¬ Dated v v predated := by
  intro turns v
  have run : Run .empty _ begun := play_run (rewriting.take 1) .empty (by decide +kernel)
  have performed : begun.perform [] Query.backdates = (.ok [], predated) := by decide +kernel
  have decoded : Decodable.decode? v.payload = some (⟨none, 9, ⟨9, rfl⟩, ⟨9, rfl⟩⟩ : Node) := by
    decide +kernel
  refine ⟨run.session .nil, ⟨_, .head _, by decide +kernel⟩,
    query_disguised Query.backdating_resolved performed .epoch, fun dated => ?_⟩
  have scanned := congrArg (fun r => r.1.toOption.map (·.created.micros))
    (dated.scanned .epoch decoded)
  exact absurd scanned (by decide +kernel)

end RecordLedger.Ledger
