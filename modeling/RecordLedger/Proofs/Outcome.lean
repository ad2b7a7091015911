import RecordLedger.Action

/-! Outcomes of actions, taken apart along their steps. What every step keeps the whole action
keeps. -/
namespace RecordLedger.Action

variable {ε ε' σ α β : Type} {P : σ → Prop}

@[simp] theorem outcome_pure (x : α) (s : σ) : (pure x : Action ε σ α).outcome s = (.ok x, s) := rfl

theorem outcome_bind (a : Action ε σ α) (f : α → Action ε σ β) (s : σ) :
    (a >>= f).outcome s =
      match a.outcome s with
      | (.ok x, t) => (f x).outcome t
      | (.error e, t) => (.error e, t) := by
  simp only [outcome, ExceptT.run_bind, StateT.run_bind]
  generalize a.run.run s = met
  obtain ⟨answer, t⟩ := met
  cases answer <;> rfl

theorem outcome_wrap (tell : ε → ε') (a : Action ε σ α) (s : σ) :
    (a.wrap tell).outcome s = ((a.outcome s).1.mapError tell, (a.outcome s).2) := rfl

section Steps

variable {a : Action ε σ α} {f : α → Action ε σ β} {s t : σ} {x : α} {e : ε} {tell : ε → ε'}

theorem outcome_bind_ok (met : a.outcome s = (.ok x, t)) :
    (a >>= f).outcome s = (f x).outcome t := by
  rw [outcome_bind, met]

theorem outcome_bind_error (met : a.outcome s = (.error e, t)) :
    (a >>= f).outcome s = (.error e, t) := by
  rw [outcome_bind, met]

theorem outcome_wrap_ok (met : a.outcome s = (.ok x, t)) :
    (a.wrap tell).outcome s = (.ok x, t) := by
  rw [outcome_wrap, met]
  rfl

theorem outcome_wrap_error (met : a.outcome s = (.error e, t)) :
    (a.wrap tell).outcome s = (.error (tell e), t) := by
  rw [outcome_wrap, met]
  rfl

theorem bind_cases {r : Except ε β} (met : (a >>= f).outcome s = (r, t)) :
    (∃ e, a.outcome s = (.error e, t) ∧ r = .error e) ∨
    ∃ x u, a.outcome s = (.ok x, u) ∧ (f x).outcome u = (r, t) := by
  rw [outcome_bind] at met
  cases first : a.outcome s with
  | mk answer u =>
    rw [first] at met
    cases answer with
    | error e =>
      cases met
      exact .inl ⟨e, rfl, rfl⟩
    | ok x => exact .inr ⟨x, u, rfl, met⟩

end Steps

def Keeps (P : σ → Prop) (a : Action ε σ α) : Prop := ∀ s, P s → P (a.outcome s).2

theorem keeps_pure (x : α) : Keeps P (pure x : Action ε σ α) := fun _ holds => holds

theorem keeps_throw (e : ε) : Keeps P (throw e : Action ε σ α) := fun _ holds => holds

theorem keeps_bind {a : Action ε σ α} {f : α → Action ε σ β} (first : Keeps P a)
    (rest : ∀ x, Keeps P (f x)) : Keeps P (a >>= f) := by
  intro s holds
  have after := first s holds
  cases met : a.outcome s with
  | mk answer t =>
    rw [met] at after
    cases answer with
    | ok x => rw [outcome_bind_ok met]; exact rest x t after
    | error e => rw [outcome_bind_error met]; exact after

theorem frame_wrap (tell : ε → ε') {a : Action ε σ α} {s : σ} (kept : (a.outcome s).2 = s) :
    ((a.wrap tell).outcome s).2 = s := kept

theorem frame_bind {a : Action ε σ α} {f : α → Action ε σ β} {s : σ} (first : (a.outcome s).2 = s)
    (rest : ∀ x, ((f x).outcome s).2 = s) : ((a >>= f).outcome s).2 = s := by
  cases met : a.outcome s with
  | mk answer t =>
    obtain rfl : t = s := by rwa [met] at first
    cases answer with
    | ok x => rw [outcome_bind_ok met]; exact rest x
    | error e => rw [outcome_bind_error met]

section Lists

variable {f : α → Action ε σ β} {s : σ}

theorem frame_mapM (each : ∀ x, ((f x).outcome s).2 = s) (xs : List α) :
    ((xs.mapM f).outcome s).2 = s := by
  induction xs with
  | nil => rfl
  | cons x xs ih =>
    rw [List.mapM_cons]
    exact frame_bind (each x) fun _ => frame_bind ih fun _ => rfl

/-- Steps that succeed and leave the state as it is do so one after the other. -/
theorem outcome_mapM_ok {g : α → Option β} (xs : List α)
    (each : ∀ x ∈ xs, ∃ y, g x = some y ∧ (f x).outcome s = (.ok y, s)) :
    (xs.mapM f).outcome s = (.ok (xs.filterMap g), s) := by
  induction xs with
  | nil => rfl
  | cons x xs ih =>
    obtain ⟨y, found, met⟩ := each x List.mem_cons_self
    have rest := ih fun z member => each z (List.mem_cons_of_mem x member)
    rw [List.mapM_cons, outcome_bind_ok met, outcome_bind_ok rest, List.filterMap_cons_some found]
    rfl

/-- Steps that leave the state as it is all succeed, or stop at one that fails. -/
theorem outcome_mapM_cases (xs : List α)
    (each : ∀ x ∈ xs, ((f x).outcome s).2 = s) :
    (∃ ys, (xs.mapM f).outcome s = (.ok ys, s) ∧
        ∀ x ∈ xs, ∃ y, (f x).outcome s = (.ok y, s)) ∨
      ∃ x ∈ xs, ∃ e, (f x).outcome s = (.error e, s) ∧ (xs.mapM f).outcome s = (.error e, s) := by
  induction xs with
  | nil => exact .inl ⟨[], rfl, by simp⟩
  | cons x xs ih =>
    obtain ⟨here, others⟩ := List.forall_mem_cons.mp each
    cases met : (f x).outcome s with
    | mk answer t =>
      obtain rfl : t = s := by rwa [met] at here
      cases answer with
      | error e =>
        refine .inr ⟨x, List.mem_cons_self, e, met, ?_⟩
        rw [List.mapM_cons, outcome_bind_error met]
      | ok y =>
        rw [List.mapM_cons, outcome_bind_ok met]
        obtain ⟨ys, rest, passed⟩ | ⟨z, member, e, failed, rest⟩ := ih others
        · refine .inl ⟨y :: ys, ?_, List.forall_mem_cons.mpr ⟨⟨y, met⟩, passed⟩⟩
          rw [outcome_bind_ok rest]
          rfl
        · refine .inr ⟨z, List.mem_cons_of_mem x member, e, failed, ?_⟩
          rw [outcome_bind_error rest]

end Lists

end RecordLedger.Action
