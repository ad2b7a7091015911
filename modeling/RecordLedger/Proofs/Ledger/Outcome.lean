import RecordLedger.Ledger.Append
import RecordLedger.Ledger.Index
import RecordLedger.Ledger.Page
import RecordLedger.Proofs.Outcome

/-! Outcomes of calls. An action of a ledger meets its backend through calls alone, so what every
call keeps the whole action keeps. -/
namespace RecordLedger.Action

open Ledger (call)

variable {σ α : Type} {P : σ → Prop} {b : Store.Backend σ} {c : Store.Call}

@[simp] theorem outcome_call (b : Store.Backend σ) (c : Store.Call) (s : σ) :
    @outcome Ledger.Error σ (no_index c.Answer) (call b c) s =
      ((b c s).1.mapError .store, (b c s).2) := rfl

theorem outcome_call_bind {f : c.Answer → Ledger.Action σ α} {x : c.Answer}
    (answered : b c s = (.ok x, t)) : (call b c >>= f).outcome s = (f x).outcome t := by
  apply outcome_bind_ok
  rw [outcome_call, answered]
  rfl

theorem call_bind_cases {f : c.Answer → Ledger.Action σ α}
    (met : (call b c >>= f).outcome s = (r, t)) :
    (∃ e, b c s = (.error e, t) ∧ r = .error (.store e)) ∨
    ∃ x u, b c s = (.ok x, u) ∧ (f x).outcome u = (r, t) := by
  rcases bind_cases met with ⟨_, failed, rfl⟩ | ⟨x, u, passed, rest⟩
  · rw [outcome_call] at failed
    cases answered : b c s with
    | mk answer u =>
      rw [answered] at failed
      cases answer with
      | error e => cases failed; exact .inl ⟨e, rfl, rfl⟩
      | ok x => cases failed
  · rw [outcome_call] at passed
    cases answered : b c s with
    | mk answer v =>
      rw [answered] at passed
      cases answer with
      | error e => cases passed
      | ok y => cases passed; exact .inr ⟨_, _, rfl, rest⟩

theorem keeps_call (kept : ∀ s, P s → P (b c s).2) : Keeps P (call b c) :=
  fun s holds => kept s holds

end RecordLedger.Action
