import RecordLedger.Collection.Document
import RecordLedger.Proofs.Ledger.Backing

/-! What collections show of a log. Each reader decodes versions on its own, one at a time, with the
first timestamp of the record as the time of its creation. -/
namespace RecordLedger

open Store (Logged)

namespace Collection

variable {σ α β : Type}

variable [Entity α] {s : Store} {log : List Version} {c : Collection α} {id : RecordId}
  {v : Version} {x : α}

def value? (log : List Version) (v : Version) : Option α :=
  (v.decode? (created log v)).map (Entity.setTag v.tag)

/-- Every payload under the tag that is no deletion can be decoded. -/
def Decodes (c : Collection α) (log : List Version) : Prop :=
  ∀ v ∈ log, v.tag = c.tag → v.payload ≠ tombstone →
    (Decodable.decode? (α := α) v.payload).isSome = true

theorem value?_of_decode {body : α} (decoded : Decodable.decode? v.payload = some body) :
    value? log v =
      some (Entity.setTag v.tag (Decodable.place (.ofVersion v (created log v)) body)) := by
  rw [value?, Version.decode?, decoded]
  rfl

theorem Decodes.value {vs : List Version} (decodes : Decodes c vs) (member : v ∈ vs)
    (tagged : v.tag = c.tag) (live : v.payload ≠ tombstone) :
    ∃ body, Decodable.decode? v.payload = some body ∧ value? log v =
      some (Entity.setTag v.tag (Decodable.place (.ofVersion v (created log v)) body : α)) := by
  obtain ⟨body, decoded⟩ := Option.isSome_iff_exists.mp (decodes v member tagged live)
  exact ⟨body, decoded, value?_of_decode decoded⟩

theorem Decodes.entries (decodes : Decodes c log) (id : RecordId) : Decodes c (entries log id) :=
  fun v member => decodes v (mem_entries.mp member).1

theorem decode_logged (logged : Logged log s) (now : Instant) (valued : value? log v = some x) :
    (decode (Store.answer now) v).outcome s = (.ok x, s) := by
  obtain ⟨placed, decoded, rfl⟩ := Option.map_eq_some_iff.mp valued
  rw [decode, Action.outcome_bind_ok (Action.outcome_wrap_ok
    (Ledger.scan_logged logged now decoded))]
  rfl

theorem decode_undecodable (logged : Logged log s) (now : Instant)
    (broken : Decodable.decode? (α := α) v.payload = none) :
    (decode (α := α) (Store.answer now) v).outcome s =
      (.error (.ledger (.undecodable v.tag v.id v.sequence)), s) := by
  rw [decode, Action.outcome_bind_error (Action.outcome_wrap_error
    (Ledger.scan_undecodable logged now broken))]

/-- Pages are only looked at. -/
theorem fetch_frame (now : Instant) (c : Collection α) (first : Nat) (before : Option Cursor)
    (s : Store) : ((fetch (Store.answer now) c first before).outcome s).2 = s := by
  have scanned (v : Version) : ((edge (α := α) (Store.answer now) v).outcome s).2 = s := by
    refine Action.frame_bind (Action.frame_bind (Action.frame_wrap _ ?_) fun _ => rfl) fun _ => rfl
    exact Ledger.keeps_reading now (.scan (α := α) v) trivial s
  unfold fetch
  have fetched := Ledger.keeps_reading now (.fetch c.tag first (before.map (·.id))) trivial s
  refine Action.frame_bind (Action.frame_wrap _ fetched) fun found => ?_
  exact Action.frame_bind (Action.frame_mapM scanned found.remaining) fun _ => rfl

theorem isTombstone_of_live (live : v.payload ≠ tombstone) : v.isTombstone = false :=
  (Store.isTombstone_eq_false_iff v.payload).mpr live

theorem isTombstone_of_dead (dead : v.payload = tombstone) : v.isTombstone = true :=
  (Store.isTombstone_iff v.payload).mpr dead

theorem read_shown (logged : Logged log s) (oneTag : Ledger.OneTag log) (now : Instant)
    (last : (entries log id).getLast? = some v) (tagged : v.tag = c.tag)
    (live : v.payload ≠ tombstone) (valued : value? log v = some x) :
    (read (Store.answer now) c id).outcome s = (.ok x, s) := by
  have found := Ledger.read_logged logged oneTag now id c.tag
  simp only [last, if_pos tagged] at found
  rw [read, Action.outcome_bind_ok (Action.outcome_wrap_ok found), isTombstone_of_live live]
  exact decode_logged logged now valued

theorem read_hidden (logged : Logged log s) (oneTag : Ledger.OneTag log) (now : Instant)
    (hidden : ∀ v, (entries log id).getLast? = some v → v.tag = c.tag → v.payload = tombstone) :
    ∃ e, (read (Store.answer now) c id).outcome s = (.error e, s) ∧ e.isNotFound = true := by
  have found := Ledger.read_logged logged oneTag now id c.tag
  have missing : (Ledger.read (Store.answer now) id c.tag).outcome s =
        (.error (.missing (.record c.tag id)), s) →
      ∃ e, (read (Store.answer now) c id).outcome s = (.error e, s) ∧ e.isNotFound = true := by
    intro met
    refine ⟨.ledger (.missing (.record c.tag id)), ?_, rfl⟩
    rw [read, Action.outcome_bind_error (Action.outcome_wrap_error met)]
  cases last : (entries log id).getLast? with
  | none =>
    rw [last] at found
    exact missing found
  | some v =>
    rw [last] at found
    by_cases tagged : v.tag = c.tag
    · simp only [if_pos tagged] at found
      refine ⟨.deleted c.tag id, ?_, rfl⟩
      rw [read, Action.outcome_bind_ok (Action.outcome_wrap_ok found),
        isTombstone_of_dead (hidden v last tagged)]
      rfl
    · simp only [if_neg tagged] at found
      exact missing found

def entryOf (log : List Version) (v : Version) : Entry α :=
  ⟨v.sequence, v.timestamp, if v.isTombstone then none else value? log v⟩

theorem history_logged (logged : Logged log s) (decodes : Decodes c (entries log id))
    (now : Instant) :
    (history (Store.answer now) c id).outcome s =
      (.ok (((entries log id).reverse.filter (·.tag = c.tag)).map (entryOf log)), s) := by
  have found := Ledger.history_logged logged now id
  rw [history, Action.outcome_bind_ok (Action.outcome_wrap_ok found), ← List.filterMap_eq_map]
  refine Action.outcome_mapM_ok _ fun v member => ⟨_, rfl, ?_⟩
  obtain ⟨listed, tagged⟩ := List.mem_filter.mp member
  by_cases dead : v.payload = tombstone
  · simp only [entry, entryOf, isTombstone_of_dead dead, if_true]
    rfl
  · obtain ⟨body, _, valued⟩ : ∃ body, Decodable.decode? v.payload = some body ∧ value? log v = _ :=
      decodes.value (List.mem_reverse.mp listed) (of_decide_eq_true tagged) dead
    have decoded := decode_logged logged now valued
    rw [entry, entryOf, isTombstone_of_live dead, if_neg Bool.false_ne_true,
      Action.outcome_bind_ok decoded, if_neg Bool.false_ne_true, valued]
    rfl

theorem history_present (logged : Logged log s) (decodes : Decodes c (entries log id))
    (now : Instant)
    (last : (entries log id).getLast? = some v) (tagged : v.tag = c.tag)
    (live : v.payload ≠ tombstone) {x : α} (valued : value? log v = some x) :
    ∃ rest, (history (Store.answer now) c id).outcome s =
      (.ok (⟨v.sequence, v.timestamp, some x⟩ :: rest), s) := by
  obtain ⟨front, shape⟩ := List.getLast?_eq_some_iff.mp last
  rw [history_logged logged decodes, shape, List.reverse_append, List.reverse_singleton,
    List.singleton_append, List.filter_cons_of_pos (by simpa using tagged), List.map_cons]
  have first : entryOf log v = ⟨v.sequence, v.timestamp, some x⟩ := by
    rw [entryOf, isTombstone_of_live live, if_neg Bool.false_ne_true, valued]
  rw [first]
  exact ⟨_, rfl⟩

theorem history_absent (logged : Logged log s) (oneTag : Ledger.OneTag log)
    (decodes : Decodes c (entries log id)) (now : Instant)
    (hidden : ∀ v, (entries log id).getLast? = some v → v.tag = c.tag → v.payload = tombstone) :
    ∃ found, (history (Store.answer now) c id).outcome s = (.ok found, s) ∧
      found.head?.all (·.isDeleted) = true := by
  refine ⟨_, history_logged logged decodes now, ?_⟩
  cases last : (entries log id).getLast? with
  | none =>
    rw [List.getLast?_eq_none_iff.mp last]
    rfl
  | some v =>
    obtain ⟨front, shape⟩ := List.getLast?_eq_some_iff.mp last
    by_cases tagged : v.tag = c.tag
    · rw [shape, List.reverse_append, List.reverse_singleton, List.singleton_append,
        List.filter_cons_of_pos (by simpa using tagged), List.map_cons, List.head?_cons,
        Option.all_some, Entry.isDeleted, entryOf, isTombstone_of_dead (hidden v last tagged)]
      rfl
    · have none_tagged : (entries log id).reverse.filter (·.tag = c.tag) = [] := by
        refine List.filter_eq_nil_iff.mpr fun u member same => tagged ?_
        obtain ⟨storedU, namesU⟩ := mem_entries.mp (List.mem_reverse.mp member)
        obtain ⟨storedV, namesV⟩ := mem_entries.mp (List.mem_of_getLast? last)
        rw [← oneTag u storedU v storedV (namesU.trans namesV.symm)]
        exact of_decide_eq_true same
      rw [none_tagged]
      rfl

def edge? (log : List Version) (v : Version) : Option (Edge α) :=
  (value? log v).map fun x => ⟨⟨v.id⟩, x⟩

theorem edge?_of_value (valued : value? log v = some x) : edge? log v = some ⟨⟨v.id⟩, x⟩ := by
  rw [edge?, valued]
  rfl

def connected (log : List Version) (page : Ledger.ResultSet) : Connection α :=
  ⟨page.remaining.filterMap (edge? log), page.page⟩

theorem fetch_logged {page : Ledger.ResultSet} {k : Nat} {before : Option RecordId}
    (logged : Logged log s) (now : Instant)
    (met : (Ledger.fetch (Store.answer now) c.tag k before).outcome s = (.ok page, s))
    (valued : ∀ v ∈ page.remaining, ∃ x : α, value? log v = some x) :
    (fetch (Store.answer now) c k (before.map Cursor.mk)).outcome s =
      (.ok (connected log page), s) := by
  have edges : (page.remaining.mapM (edge (α := α) (Store.answer now))).outcome s =
      (.ok (page.remaining.filterMap (edge? log)), s) := by
    refine Action.outcome_mapM_ok _ fun v member => ?_
    obtain ⟨x, valued⟩ := valued v member
    refine ⟨⟨⟨v.id⟩, x⟩, edge?_of_value valued, ?_⟩
    rw [edge, Action.outcome_bind_ok (decode_logged logged now valued)]
    rfl
  have same : (before.map Cursor.mk).map (·.id) = before := by cases before <;> rfl
  rw [fetch, same, Action.outcome_bind_ok (Action.outcome_wrap_ok met),
    Action.outcome_bind_ok edges]
  rfl

theorem connected_ids {page : Ledger.ResultSet}
    (valued : ∀ v ∈ page.remaining, ∃ x : α, value? log v = some x) :
    (connected (α := α) log page).edges.map (·.cursor.id) = page.remaining.map (·.id) := by
  have each : ∀ vs : List Version, (∀ v ∈ vs, ∃ x : α, value? log v = some x) →
      (vs.filterMap (edge? (α := α) log)).map (·.cursor.id) = vs.map (·.id) := by
    intro vs valued
    induction vs with
    | nil => rfl
    | cons v vs ih =>
      obtain ⟨⟨x, first⟩, rest⟩ := List.forall_mem_cons.mp valued
      rw [List.filterMap_cons_some (edge?_of_value first), List.map_cons, List.map_cons, ih rest]
  exact each page.remaining valued

theorem fetch_connected {conn : Connection α} {k : Nat} {before : Option RecordId} {t : Store}
    {now : Instant} (logged : Logged log s)
    (valued : ∀ page, (Ledger.fetch (Store.answer now) c.tag k before).outcome s = (.ok page, s) →
      ∀ v ∈ page.remaining, ∃ x : α, value? log v = some x)
    (met : (fetch (Store.answer now) c k (before.map Cursor.mk)).outcome s = (.ok conn, t)) :
    ∃ page, (Ledger.fetch (Store.answer now) c.tag k before).outcome s = (.ok page, s) ∧
      conn = connected log page := by
  have same : (before.map Cursor.mk).map (·.id) = before := by cases before <;> rfl
  have frame := Ledger.keeps_reading now (.fetch c.tag k before) trivial s
  obtain ⟨answer, fetched⟩ : ∃ answer,
      (Ledger.fetch (Store.answer now) c.tag k before).outcome s = (answer, s) :=
    ⟨_, Prod.ext rfl frame⟩
  cases answer with
  | error e =>
    rw [fetch, same, Action.outcome_bind_error (Action.outcome_wrap_error fetched)] at met
    cases met
  | ok page =>
    have shown := fetch_logged logged now fetched (valued page fetched)
    rw [met] at shown
    cases shown
    exact ⟨page, fetched, rfl⟩

end Collection
end RecordLedger
