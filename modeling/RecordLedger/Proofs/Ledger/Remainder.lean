import RecordLedger.Proofs.Ledger.Draining

/-! The rest of a result set, taken one version at a time or all at once. Both ways give the same
versions until a failure stops the set; from then on only the bulk way gives any. -/
namespace RecordLedger.Ledger.ResultSet

inductive Yields : ResultSet → List Version → Prop
  | ended {r r' : ResultSet} : r.next = (none, r') → Yields r []
  | gave {r r' : ResultSet} {v : Version} {vs : List Version} :
      r.next = (some v, r') → Yields r' vs → Yields r (v :: vs)

/-- What is left of a set of `records`: some versions come one at a time, and some all at once. -/
inductive Rest (records : List Version) (r : ResultSet) : List Version → List Version → Prop
  | going {taken vs : List Version} : records = taken ++ vs → r.failure = none →
      Rest records r vs vs
  | stopped {taken all : List Version} {v : Version} {e : Error} : records = taken ++ v :: all →
      r.failure = some e → Rest records r [] all

variable {σ : Type} {b : Store.Backend σ} {r : ResultSet} {vs ws : List Version}

theorem Yields.unique (yields : Yields r vs) (other : Yields r ws) : vs = ws := by
  induction yields generalizing ws with
  | ended nothing =>
    cases other with
    | ended _ => rfl
    | gave next _ => cases nothing.symm.trans next
  | gave next _ ih =>
    cases other with
    | ended nothing => cases nothing.symm.trans next
    | gave again rest =>
      cases next.symm.trans again
      rw [ih rest]

/-- A set that no failure has stopped yields all its versions. -/
theorem yields_going (vs : List Version) (page : PageInfo) : Yields ⟨vs, page, none⟩ vs := by
  induction vs with
  | nil => exact .ended rfl
  | cons v vs ih => exact .gave (next_cons v vs page) ih

theorem yields_ended (ended : r.length = 0) : Yields r [] := .ended (next_ended ended)

theorem rest_of_course {records : List Version} {answers : List Answer} {s t : σ}
    (course : Course b records answers r s t) :
    ∃ vs, Yields r vs ∧ r.length = vs.length ∧ Rest records r vs r.intoRecords := by
  cases course with
  | going _ _ _ going =>
    obtain ⟨remaining, page, failure⟩ := r
    obtain rfl : failure = none := going.failure
    exact ⟨remaining, yields_going remaining page, rfl, .going going.split rfl⟩
  | stopped _ _ _ stopped =>
    exact ⟨[], yields_ended stopped.length, stopped.length, .stopped stopped.split stopped.failure⟩

/-- The bulk way agrees unless versions stand behind one that has stopped the set. -/
theorem Rest.agrees_iff {records all : List Version} (rest : Rest records r vs all) :
    all = vs ↔ r.failure = none ∨ all = [] := by
  cases rest with
  | going _ failure => exact ⟨fun _ => .inl failure, fun _ => rfl⟩
  | stopped _ failure =>
    constructor
    · exact .inr
    · rintro (none_kept | nothing)
      · cases failure.symm.trans none_kept
      · exact nothing

/-- After any calls on a set of records: the versions that repeated calls for the next one still
give are determined and as many as the length says. Taking all at once gives the same ones exactly
if no failure has stopped the set, or one at its last record; otherwise it gives those behind the
record that failed, although the set yields nothing more. -/
theorem bulk_agrees_iff (b : Store.Backend σ) (records : List Version) (page : PageInfo)
    (takes : List Take) (s : σ) :
    ∃ answers r t vs, drain b takes ⟨records, page, none⟩ s = (answers, r, t) ∧
      (∀ ws, Yields r ws ↔ ws = vs) ∧ r.length = vs.length ∧
      Rest records r vs r.intoRecords ∧
      (r.intoRecords = vs ↔ r.failure = none ∨ r.intoRecords = []) ∧
      (r.intoRecords.length = r.length ↔ r.intoRecords = vs) := by
  obtain ⟨vs, yields, length, rest⟩ := rest_of_course (drain_course (b := b) takes records page s)
  refine ⟨_, _, _, vs, rfl, fun ws => ⟨fun other => other.unique yields, fun same => same ▸ yields⟩,
    length, rest, rest.agrees_iff, ?_⟩
  rw [length]
  constructor
  · intro same
    cases rest with
    | going _ _ => rfl
    | stopped _ _ => exact List.length_eq_zero_iff.mp same
  · exact congrArg List.length

/-- A number is no node: the first record stops the set, and yet the bulk way gives the second. -/
theorem stopped_set_gives_more :
    let tag : Tag := ⟨"app.note", by decide⟩
    let v (n : Nat) : Version := ⟨n, default, tag, "1", .epoch⟩
    let met := drain (Store.answer .epoch) [.value Node] (.unpaginated [v 2, v 1]) .empty
    met.2.1.failure = some (.undecodable tag default 2) ∧ met.2.1.length = 0 ∧
      Yields met.2.1 [] ∧ ¬ Yields met.2.1 met.2.1.intoRecords ∧
      met.2.1.intoRecords = [v 1] := by
  intro tag v met
  have failure : met.2.1.failure = some (.undecodable tag default 2) := by decide
  have ended : met.2.1.length = 0 := by rw [length, failure]; rfl
  have left : met.2.1.intoRecords = [v 1] := by decide
  have yields := yields_ended ended
  refine ⟨failure, ended, yields, fun other => ?_, left⟩
  rw [left] at other
  cases other.unique yields

end RecordLedger.Ledger.ResultSet
