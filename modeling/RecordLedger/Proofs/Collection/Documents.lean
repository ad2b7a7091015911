import RecordLedger.Proofs.Collection.Readers
import RecordLedger.Proofs.Json.RoundTrip

/-! Documents, stored as the text of their body and read back. The history of a record shows a
document as long as the other versions under its tag hold documents too. -/
namespace RecordLedger

open Store (Logged)

/-- A body that a document can have: members in order, at most 127 levels deep, all numbers integers
of 64 bits. -/
structure Document.Plain (d : Document) : Prop where
  regular : Json.Regular Json.maxDepth (.object d.body)
  integral : Json.Integral (.object d.body)

namespace Document.Plain

variable {d : Document} (plain : d.Plain)
include plain

theorem ofText?_payload : Json.ofText? d.payload = some (.object d.body) :=
  Json.ofText?_compact_integral plain.regular plain.integral

theorem decode?_payload :
    Decodable.decode? d.payload = some (Document.new Document.untagged d.body) := by
  change Document.ofText? d.payload = _
  rw [Document.ofText?, plain.ofText?_payload]

theorem payload_eq_tombstone_iff : d.payload = tombstone ↔ d.body = [] := by
  constructor
  · intro dead
    have read := plain.ofText?_payload
    have empty : Json.ofText? tombstone = some (.object []) := by rfl
    rw [dead, empty] at read
    exact (Json.object.inj (Option.some.inj read)).symm
  · intro empty
    rw [payload, empty]
    rfl

end Document.Plain

namespace Collection

variable {s t : Store} {log : List Version} {c : Collection Document} {d : Document}
  {v : Version} {id : RecordId}

def stored (log : List Version) (v : Version) (d : Document) : Document :=
  ⟨.ofVersion v (created log v), v.tag, d.body⟩

theorem write_inserted {fresh : RecordId} {now : Instant} {draft : Ledger.Draft} {payload : String}
    (logged : Logged log s) (encoded : draft.payload = .ok payload)
    (met : (Ledger.write (Store.answer now) fresh draft).outcome s = (.ok v, t)) :
    Logged (log ++ [v]) t ∧ v.id = draft.id.getD fresh ∧ v.tag = draft.tag ∧
      v.payload = payload := by
  have changed : Ledger.Changed now log s (.write fresh draft) (.ok v) t :=
    Ledger.Change.changed logged met nofun
  cases changed with
  | appended _ due names tagged inserted =>
    refine ⟨logged.push inserted, names, tagged, ?_⟩
    simp only [Ledger.Change.due, encoded] at due
    split at due
    · exact (Except.ok.inj due).symm
    · split at due
      · exact (Except.ok.inj due).symm
      · cases due

theorem value?_stored (plain : d.Plain) (holds : v.payload = d.payload) :
    value? log v = some (stored log v d) := by
  rw [value?, Version.decode?, holds, plain.decode?_payload]
  rfl

theorem write_stored {fresh : RecordId} {now : Instant} (logged : Logged log s) (plain : d.Plain)
    (own : d.tag = c.tag)
    (met : (Ledger.write (Store.answer now) fresh (.ofEntity d)).outcome s = (.ok v, t)) :
    (write (Store.answer now) fresh c d).outcome s = (.ok (stored (log ++ [v]) v d), t) := by
  obtain ⟨logged', _, _, holds⟩ := write_inserted logged rfl met
  have same : ¬ Entity.tagOf d ≠ c.tag := fun other => other own
  rw [write, if_neg same]
  refine (Action.outcome_bind_ok (Action.outcome_wrap_ok met)).trans ?_
  exact decode_logged logged' now (value?_stored plain holds)

theorem write_refused [Entity α] {now : Instant} {fresh : RecordId} {c : Collection α} {x : α}
    {e : Ledger.Error} (own : Entity.tagOf x = c.tag)
    (met : (Ledger.write (Store.answer now) fresh (.ofEntity x)).outcome s = (.error e, t)) :
    (write (Store.answer now) fresh c x).outcome s = (.error (.ledger e), t) := by
  have same : ¬ Entity.tagOf x ≠ c.tag := fun other => other own
  rw [write, if_neg same]
  exact Action.outcome_bind_error (Action.outcome_wrap_error met)

/-- A value whose payload can be decoded is returned if a ledger accepts it. -/
theorem write_decodes [Entity α] (now : Instant) (fresh : RecordId) (c : Collection α) {x : α}
    {payload : String} {answer : Except Ledger.Error Version} (logged : Logged log s)
    (own : Entity.tagOf x = c.tag) (encoded : Entity.encode x = .ok payload)
    (decodes : (Decodable.decode? (α := α) payload).isSome = true)
    (met : (Ledger.write (Store.answer now) fresh (.ofEntity x)).outcome s = (answer, t)) :
    ∃ r, (write (Store.answer now) fresh c x).outcome s = (r, t) ∧ r.isOk = answer.isOk := by
  cases answer with
  | error e => exact ⟨_, write_refused own met, rfl⟩
  | ok v =>
    have same : ¬ Entity.tagOf x ≠ c.tag := fun other => other own
    rw [write, if_neg same]
    obtain ⟨logged', _, _, holds⟩ := write_inserted logged encoded met
    obtain ⟨body, decoded⟩ := Option.isSome_iff_exists.mp decodes
    exact ⟨_, (Action.outcome_bind_ok (Action.outcome_wrap_ok met)).trans
      (decode_logged logged' now (value?_of_decode (holds ▸ decoded))), rfl⟩

theorem read_newest [Entity α] {c : Collection α} {x : α} (logged : Logged log s) (now : Instant)
    (last : (entries log id).getLast? = some v) (tagged : v.tag = c.tag)
    (live : v.payload ≠ tombstone) (valued : value? log v = some x) :
    (read (Store.answer now) c id).outcome s = (.ok x, s) := by
  have found := Ledger.read_found logged now id c.tag
  obtain ⟨front, shape⟩ := List.getLast?_eq_some_iff.mp last
  rw [shape, List.reverse_append, List.reverse_singleton, List.singleton_append,
    List.find?_cons_of_pos (by simpa using tagged)] at found
  rw [read, Action.outcome_bind_ok (Action.outcome_wrap_ok found), isTombstone_of_live live]
  exact decode_logged logged now valued

/-- A version that is no deletion is decoded for its entry, or stops the history. -/
theorem entry_cases [Entity α] (logged : Logged log s) (now : Instant) (v : Version) :
    (∃ y : Entry α, (entry (Store.answer now) v).outcome s = (.ok y, s) ∧
        (v.payload = tombstone ∨ (Decodable.decode? (α := α) v.payload).isSome = true)) ∨
      v.payload ≠ tombstone ∧ Decodable.decode? (α := α) v.payload = none ∧
        (entry (α := α) (Store.answer now) v).outcome s =
          (.error (.ledger (.undecodable v.tag v.id v.sequence)), s) := by
  by_cases dead : v.payload = tombstone
  · refine .inl ⟨⟨v.sequence, v.timestamp, none⟩, ?_, .inl dead⟩
    rw [entry, isTombstone_of_dead dead]
    rfl
  · cases decoded : Decodable.decode? (α := α) v.payload with
    | some body =>
      have valued : value? log v = _ := value?_of_decode decoded
      refine .inl ⟨⟨v.sequence, v.timestamp, value? log v⟩, ?_, .inr rfl⟩
      rw [entry, isTombstone_of_live dead, if_neg Bool.false_ne_true,
        Action.outcome_bind_ok (decode_logged logged now valued), valued]
      rfl
    | none =>
      refine .inr ⟨dead, rfl, ?_⟩
      rw [entry, isTombstone_of_live dead, if_neg Bool.false_ne_true,
        Action.outcome_bind_error (decode_undecodable logged now decoded)]

/-- A version that is no value of the kind hides the history of its record. -/
theorem history_stopped [Entity α] {c : Collection α} (logged : Logged log s) (now : Instant)
    (spoiled : ¬ Decodes c (entries log id)) :
    ∃ u ∈ entries log id, u.tag = c.tag ∧ u.payload ≠ tombstone ∧
      Decodable.decode? (α := α) u.payload = none ∧
      (history (Store.answer now) c id).outcome s =
        (.error (.ledger (.undecodable u.tag u.id u.sequence)), s) := by
  have found := Ledger.history_logged logged now id
  rw [history, Action.outcome_bind_ok (Action.outcome_wrap_ok found)]
  have kept (u : Version) : ((entry (α := α) (Store.answer now) u).outcome s).2 = s := by
    rcases entry_cases (α := α) logged now u with ⟨y, met, _⟩ | ⟨_, _, met⟩ <;> rw [met]
  obtain ⟨ys, _, passed⟩ | ⟨u, member, e, failed, stopped⟩ :=
    Action.outcome_mapM_cases (f := entry (α := α) (Store.answer now))
      ((entries log id).reverse.filter (·.tag = c.tag)) fun u _ => kept u
  · refine absurd (fun u member tagged live => ?_) spoiled
    obtain ⟨y, met⟩ := passed u
      (List.mem_filter.mpr ⟨List.mem_reverse.mpr member, decide_eq_true tagged⟩)
    rcases entry_cases (α := α) logged now u with ⟨_, _, dead | decoded⟩ | ⟨_, _, failed⟩
    · exact absurd dead live
    · exact decoded
    · cases met.symm.trans failed
  · obtain ⟨listed, tagged⟩ := List.mem_filter.mp member
    rcases entry_cases (α := α) logged now u with ⟨y, met, _⟩ | ⟨live, broken, met⟩
    · cases met.symm.trans failed
    · cases met.symm.trans failed
      exact ⟨u, List.mem_reverse.mp listed, of_decide_eq_true tagged, live, broken, stopped⟩

/-- What becomes of a document that a ledger accepts as the version `v`. -/
structure ReadsBack (log : List Version) (v : Version) (t : Store) (c : Collection Document)
    (d kept : Document) : Prop where
  body : kept.body = d.body
  tag : kept.tag = c.tag
  node : kept.node = .ofVersion v (created (log ++ [v]) v)
  shown : d.body ≠ [] → ∀ later, (read (Store.answer later) c v.id).outcome t = (.ok kept, t)
  heads : d.body ≠ [] → Decodes c (entries log v.id) → ∀ later, ∃ rest,
    (history (Store.answer later) c v.id).outcome t =
      (.ok (⟨v.sequence, v.timestamp, some kept⟩ :: rest), t)
  /-- Another version under the tag that is no document stops the history. -/
  stopped : d.body ≠ [] → ¬ Decodes c (entries log v.id) → ∀ later, ∃ u ∈ entries log v.id,
    u.tag = c.tag ∧ u.payload ≠ tombstone ∧ Document.ofText? u.payload = none ∧
    (history (Store.answer later) c v.id).outcome t =
      (.error (.ledger (.undecodable u.tag u.id u.sequence)), t)

/-- A document is stored as a text that stands for its body, which marks a deletion only if the body
is empty. A collection of its tag returns it as it was given, and shows it from then on. -/
theorem documents_read_back (d : Document) (plain : d.Plain) :
    (d.payload = tombstone ↔ d.body = []) ∧
    Json.ofText? d.payload = some (.object d.body) ∧
    ∀ (log : List Version) (s t : Store) (v : Version) (c : Collection Document) (now : Instant)
      (fresh : RecordId), Logged log s → d.tag = c.tag →
      (Ledger.write (Store.answer now) fresh (.ofEntity d)).outcome s = (.ok v, t) →
      ∃ kept, (write (Store.answer now) fresh c d).outcome s = (.ok kept, t) ∧
        ReadsBack log v t c d kept := by
  refine ⟨plain.payload_eq_tombstone_iff, plain.ofText?_payload, ?_⟩
  intro log s t v c now fresh logged own met
  obtain ⟨logged', _, tagged, holds⟩ := write_inserted logged rfl met
  have tagged : v.tag = c.tag := tagged.trans own
  have live (filled : d.body ≠ []) : v.payload ≠ tombstone := fun dead =>
    filled (plain.payload_eq_tombstone_iff.mp (holds.symm.trans dead))
  have valued : value? (log ++ [v]) v = some (stored (log ++ [v]) v d) :=
    value?_stored plain holds
  have shape : entries (log ++ [v]) v.id = entries log v.id ++ [v] := by
    rw [entries_append]
    simp [entries]
  have last : (entries (log ++ [v]) v.id).getLast? = some v := by
    rw [shape, List.getLast?_append_of_ne_nil _ (List.cons_ne_nil v [])]
    rfl
  -- The new version is a document, so whether all versions are depends on the older ones.
  have decodes : Decodes c (entries (log ++ [v]) v.id) ↔ Decodes c (entries log v.id) := by
    rw [shape, Decodes, Decodes, List.forall_mem_append]
    refine and_iff_left (List.forall_mem_singleton.mpr fun _ _ => ?_)
    rw [holds, plain.decode?_payload]
    rfl
  refine ⟨stored (log ++ [v]) v d, write_stored logged plain own met, ?_⟩
  refine { body := rfl, tag := tagged, node := rfl, shown := ?_, heads := ?_, stopped := ?_ }
  · exact fun filled later => read_newest logged' later last tagged (live filled) valued
  · intro filled decoded later
    exact history_present logged' (decodes.mpr decoded) later last tagged (live filled) valued
  · intro filled spoiled later
    obtain ⟨u, member, named, alive, broken, stops⟩ :=
      history_stopped logged' later (mt decodes.mp spoiled)
    rw [shape] at member
    rcases List.mem_append.mp member with older | newest
    · exact ⟨u, older, named, alive, broken, stops⟩
    · rw [List.mem_singleton.mp newest, holds, plain.decode?_payload] at broken
      cases broken

theorem filed_reads_back :
    let tag : Tag := ⟨"app.note", by decide⟩
    let d : Document := .new tag [("a\n\"", .int 18446744073709551615),
      ("é", .array [.object [], .int (-9223372036854775808)])]
    let c : Collection Document := ⟨tag⟩
    let met := (Ledger.write (Store.answer .epoch) default (.ofEntity d)).outcome .empty
    d.payload = "\x7b\"a\\n\\\"\":18446744073709551615,\"é\":[\x7b\x7d,-9223372036854775808]\x7d" ∧
    d.Plain ∧ Logged [] .empty ∧ ∃ v, met.1 = .ok v ∧ ∃ kept,
      (write (Store.answer .epoch) default c d).outcome .empty = (.ok kept, met.2) ∧
      ReadsBack [] v met.2 c d kept := by
  intro tag d c met
  have plain : d.Plain := by
    refine ⟨⟨?_, ?_⟩, ?_⟩
    · unfold Json.Members.Ordered
      decide
    · simp [d, Document.new, Json.RegularMembers, Json.Regular, Json.RegularAll, Json.Numeral.Fits,
        Json.Members.Ordered, Word.minSigned, Word.maxUnsigned]
    · simp [d, Document.new, Json.Integral, Json.IntegralMembers, Json.IntegralAll]
  have passed : met.1.isOk = true := by decide +kernel
  cases answer : met.1 with
  | error e => rw [answer] at passed; cases passed
  | ok v =>
    have accepted : met = (.ok v, met.2) := by rw [← answer]
    refine ⟨by decide +kernel, plain, Store.empty_logged, v, rfl, ?_⟩
    exact (documents_read_back d plain).2.2 [] .empty met.2 v c .epoch default Store.empty_logged
      rfl accepted

/-- A number was written first under the id and the tag. The document that follows is accepted,
returned and read, but no history heads with it. -/
theorem mixed_history_stops :
    let tag : Tag := ⟨"app.note", by decide⟩
    let d : Document := (Document.new tag [("a", .int 1)]).withId default
    let c : Collection Document := ⟨tag⟩
    let number := (Ledger.write (Store.answer .epoch) default ⟨some default, tag, .ok "1"⟩).outcome
      .empty
    let met := (Ledger.write (Store.answer .epoch) default (.ofEntity d)).outcome number.2
    d.Plain ∧ d.body ≠ [] ∧ ∃ u v kept, number.1 = .ok u ∧ Logged [u] number.2 ∧ met.1 = .ok v ∧
      (write (Store.answer .epoch) default c d).outcome number.2 = (.ok kept, met.2) ∧
      (read (Store.answer .epoch) c v.id).outcome met.2 = (.ok kept, met.2) ∧
      ¬ ∃ rest, (history (Store.answer .epoch) c v.id).outcome met.2 =
        (.ok (⟨v.sequence, v.timestamp, some kept⟩ :: rest), met.2) := by
  intro tag d c number met
  have plain : d.Plain := by
    refine ⟨⟨List.pairwise_singleton .., ?_⟩, ?_⟩
    · simp [d, Document.new, Document.withId, Json.RegularMembers, Json.Regular, Json.Numeral.Fits,
        Word.minSigned, Word.maxUnsigned]
    · simp [d, Document.new, Document.withId, Json.Integral, Json.IntegralMembers]
  have filled : d.body ≠ [] := List.cons_ne_nil _ _
  have first : number.1.isOk = true := by decide +kernel
  have second : met.1.isOk = true := by decide +kernel
  cases numbered : number.1 with
  | error e => rw [numbered] at first; cases first
  | ok u =>
  cases answer : met.1 with
  | error e => rw [answer] at second; cases second
  | ok v =>
  have wrote : number = (.ok u, number.2) := by rw [← numbered]
  obtain ⟨logged, names, tagged, holds⟩ := write_inserted Store.empty_logged rfl wrote
  have accepted : met = (.ok v, met.2) := by rw [← answer]
  obtain ⟨logged', names', tagged', holds'⟩ := write_inserted logged rfl accepted
  have shape : entries ([u] ++ [v]) v.id = [u, v] := by
    have same : u.id = v.id := names.trans names'.symm
    simp [entries, same]
  have live : v.payload ≠ tombstone := fun dead =>
    filled (plain.payload_eq_tombstone_iff.mp (holds'.symm.trans dead))
  have last : (entries ([u] ++ [v]) v.id).getLast? = some v := by
    rw [shape]
    rfl
  have spoiled : ¬ Decodes c (entries ([u] ++ [v]) v.id) := by
    intro decodes
    have decoded := decodes u (by rw [shape]; exact List.mem_cons_self) tagged
      (by rw [holds]; decide)
    rw [holds] at decoded
    cases decoded
  refine ⟨plain, filled, u, v, _, rfl, logged, rfl, write_stored logged plain rfl accepted,
    read_newest logged' .epoch last tagged' live (value?_stored plain holds'), ?_⟩
  rintro ⟨rest, heads⟩
  obtain ⟨_, _, _, _, _, stops⟩ := history_stopped logged' .epoch spoiled
  cases heads.symm.trans stops

end Collection
end RecordLedger
