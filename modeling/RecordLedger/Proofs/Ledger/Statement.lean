import RecordLedger.Proofs.Ledger.Consistency
import RecordLedger.Proofs.Query.Disguise
import RecordLedger.Proofs.Store.Changes

/-! What ad hoc statements leave alone. A statement is judged by how its text begins and by two
things it has to mention, and the store runs whatever it is given: behind common table expressions
every change passes for a read. -/
namespace RecordLedger

namespace Query

def Directive.Changes : Directive → Prop
  | .rows _ => False
  | _ => True

theorem Directive.Changes.not_selects {st : Statement} {directive : Directive}
    (changes : directive.Changes) (planned : st.directive? = some directive) : ¬ st.selects := by
  rintro ⟨-, selection, verb⟩
  rw [Statement.directive?, verb] at planned
  obtain ⟨p, -, rfl⟩ := Option.map_eq_some_iff.mp planned
  exact changes

end Query

namespace Ledger

open Query (Statement violation?)

variable {sql : String} {args : List Json}

/-- A statement of another shape reaches no store. -/
theorem query_rejected {violation : Query.Violation} (rejected : violation? sql = some violation)
    (now : Instant) (s : Store) :
    (query (Store.answer now) sql args).outcome s = (.error (.shape violation), s) := by
  rw [query, rejected]
  rfl

theorem query_accepted (accepted : violation? sql = none) (now : Instant) (s : Store) :
    (query (Store.answer now) sql args).outcome s =
      (((s.query sql args).1.mapError .store).map .unpaginated, (s.query sql args).2) := by
  rw [query, accepted]
  simp only [Action.outcome_bind, Action.outcome_call, Store.answer]
  cases (s.query sql args).1 <;> rfl

/-- Behind the pretext a directive is performed, whatever it is. -/
theorem query_disguised {statement : String} {directive : Query.Directive} {s t : Store}
    {found : List Version}
    (resolved : Store.resolved? (Query.disguised statement) = some (0, directive))
    (performed : s.perform [] directive = (.ok found, t)) (now : Instant) :
    (query (Store.answer now) (Query.disguised statement) []).outcome s =
      (.ok (.unpaginated found), t) := by
  have given : ([] : List Json).mapM Store.bound = .ok [] := rfl
  rw [query_accepted (Query.disguised_accepted statement),
    Store.query_performed given resolved rfl, performed]
  rfl

theorem query_unlisting (now : Instant) (s : Store) :
    (query (Store.answer now) Query.unlisting []).outcome s =
      (.ok (.unpaginated []), { s with index := [] }) := by
  have picked : s.index.filter (fun r => !Store.picks [] none r.values) = [] := by
    simp [Store.picks]
  have performed : s.perform [] Query.unlists = (.ok [], { s with index := [] }) := by
    rw [Query.unlists, Store.perform, picked]
    rfl
  exact query_disguised Query.unlisting_resolved performed now

theorem queryOne_after (now : Instant) (sql : String) (args : List Json) (s : Store) :
    ((queryOne (Store.answer now) sql args).outcome s).2 =
      ((query (Store.answer now) sql args).outcome s).2 := by
  rw [queryOne, Action.outcome_bind]
  cases (query (Store.answer now) sql args).outcome s with
  | mk answer t =>
    cases answer with
    | error e => rfl
    | ok found =>
      dsimp only
      cases found.next.1 <;> rfl

/-- The text of a statement that has a directive. -/
theorem resolved?_reads {parameters : Nat} {directive : Query.Directive}
    (resolved : Store.resolved? sql = some (parameters, directive)) :
    ∃ st, Statement.ofText? sql = some st ∧ st.directive? = some directive := by
  unfold Store.resolved? at resolved
  split at resolved
  · cases resolved
  · obtain ⟨st, read, found⟩ := Option.bind_eq_some_iff.mp resolved
    obtain ⟨_, planned, same⟩ := Option.map_eq_some_iff.mp found
    cases same
    exact ⟨st, read, planned⟩

/-- A statement that is rejected leaves the store as it is, and so does one that selects. Any other
opens with the word `with` if it is let through, and makes of the store what its directive can. -/
structure Judged (sql : String) (args : List Json) (s t : Store) : Prop where
  rejected : violation? sql ≠ none → t = s
  disguised : t ≠ s → Query.startsWith "with" (Query.normalize sql.toList) = true ∧
    ∃ values parameters directive, args.mapM Store.bound = .ok values ∧
      Store.resolved? sql = some (parameters, directive) ∧ directive.Changes ∧
      Store.Allowed values s t directive
  textual : ∀ st, violation? sql = none → Statement.ofText? sql = some st →
    st.selects ∨ Query.startsWith "with" (Query.normalize sql.toList) = true

theorem judged (now : Instant) (sql : String) (args : List Json) (s : Store) :
    Judged sql args s ((query (Store.answer now) sql args).outcome s).2 := by
  cases shape : violation? sql with
  | some violation =>
    rw [query_rejected shape]
    refine ⟨fun _ => rfl, fun other => absurd rfl other, fun st accepted => ?_⟩
    rw [shape] at accepted
    cases accepted
  | none =>
    rw [query_accepted shape]
    refine ⟨fun other => absurd shape other, fun other => ?_,
      fun st accepted read => Statement.selects_or_with accepted read⟩
    rcases Store.query_cases sql args s with
      same | ⟨values, parameters, directive, bound, resolved, ran⟩
    · exact absurd same other
    · have allowed := Store.perform_allowed values s directive
      rw [← ran] at allowed
      have changes : directive.Changes := by
        cases directive with
        | rows plan => exact absurd allowed other
        | _ => trivial
      obtain ⟨st, read, planned⟩ := resolved?_reads resolved
      exact ⟨(Statement.selects_or_with shape read).resolve_left (changes.not_selects planned),
        values, parameters, directive, bound, resolved, changes, allowed⟩

def once : Store :=
  ⟨[⟨1, (default : RecordId).text, "app.note", "[1]", 5⟩],
    [⟨1, (default : RecordId).text, "app.note"⟩], 1, 1⟩

def writing : List Event := play (restoring.take 1) .empty

theorem writing_run : Run .empty writing once := play_run (restoring.take 1) .empty (by decide)

end Ledger
end RecordLedger
