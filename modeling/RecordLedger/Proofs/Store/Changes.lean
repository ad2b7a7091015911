import RecordLedger.Store.Query

/-! What directives leave alone. A change concerns one relation, and unless rows may be
replaced an insertion keeps all that are there. -/
namespace RecordLedger.Store

open Query (Directive Resolution)

section Tables

variable {ρ α : Type} {h : Holding ρ} {r : Resolution} {t u : Table ρ} {made : Option ρ}

/-- What every step keeps stays over all steps. -/
theorem Table.each_keeps {P : Table ρ → Prop} {step : Table ρ → α → Option (Table ρ × Option ρ)}
    (kept : ∀ t x u made, P t → step t x = some (u, made) → P u) {xs : List α} {made : List ρ}
    (start : P t) (met : t.each step xs = some (u, made)) : P u := by
  induction xs generalizing t made with
  | nil => cases met; exact start
  | cons x xs ih =>
    simp only [each, Option.bind_eq_bind, Option.bind_eq_some_iff] at met
    obtain ⟨⟨v, first⟩, once, ⟨w, others⟩, rest, same⟩ := met
    cases same
    exact ih (kept t x v first start once) rest

/-- A row that is settled is put behind those it goes with, or left out. -/
theorem Holding.settle_cases {others : List ρ} {n : Int} {values : Query.Row}
    (met : h.settle r t others n values = some (u, made)) :
    u = t ∨ ∃ row, u = ⟨others.filter (!h.clash row ·) ++ [row], max t.last n⟩ ∧
      (r = .replace ∨ others.any (h.clash row) = false) := by
  have left_out {x : Table ρ × Option ρ}
      (refused : (if r = .ignore then some (t, none) else none) = some x) : x.1 = t := by
    split at refused
    · cases refused; rfl
    · cases refused
  unfold settle at met
  dsimp only at met
  split at met
  · exact .inl (left_out met)
  · simp only [Option.bind_eq_bind, Option.bind_eq_some_iff] at met
    obtain ⟨row, _, met⟩ := met
    split at met
    · cases met
    · split at met
      · next goes =>
        cases met
        refine .inr ⟨row, rfl, ?_⟩
        simpa using goes
      · exact .inl (left_out met)

theorem Holding.settle_last {others : List ρ} {n : Int} {values : Query.Row}
    (met : h.settle r t others n values = some (u, made)) : t.last ≤ u.last := by
  rcases settle_cases met with rfl | ⟨row, rfl, -⟩
  · exact Int.le_refl _
  · exact Int.le_max_left _ _

def Table.Extends (t u : Table ρ) : Prop := t.rows <+: u.rows ∧ t.last ≤ u.last

theorem Holding.insert_cases {row : Query.Row} (met : h.insert r t row = some (u, made)) :
    ∃ n values, h.settle r { t with last := max t.last n } t.rows n values = some (u, made) := by
  cases row with
  | nil => cases met
  | cons number values =>
    obtain ⟨n, -, settled⟩ := Option.bind_eq_some_iff.mp met
    exact ⟨n, values, settled⟩

theorem Holding.insert_last {row : Query.Row} (met : h.insert r t row = some (u, made)) :
    t.last ≤ u.last := by
  obtain ⟨n, values, settled⟩ := insert_cases met
  exact Int.le_trans (Int.le_max_left _ _) (settle_last settled)

/-- An insertion that may replace nothing keeps all rows. -/
theorem Holding.insert_extends (keeping : r ≠ .replace) {row : Query.Row}
    (met : h.insert r t row = some (u, made)) : t.Extends u := by
  refine ⟨?_, insert_last met⟩
  obtain ⟨n, values, settled⟩ := insert_cases met
  rcases settle_cases settled with rfl | ⟨row, rfl, goes⟩
  · exact List.prefix_refl _
  · have apart : ∀ other ∈ t.rows, (!h.clash row other) = true := by
      simpa using goes.resolve_left keeping
    change t.rows <+: t.rows.filter (!h.clash row ·) ++ [row]
    rw [List.filter_eq_self.mpr apart]
    exact List.prefix_append _ _

theorem Holding.each_insert {rows : List Query.Row} {made : List ρ}
    (met : t.each (h.insert r) rows = some (u, made)) :
    t.last ≤ u.last ∧ (r ≠ .replace → t.rows <+: u.rows) := by
  refine ⟨?_, fun keeping => ?_⟩
  · exact Table.each_keeps (P := fun u => t.last ≤ u.last)
      (fun _ _ _ _ below once => Int.le_trans below (insert_last once)) (Int.le_refl _) met
  · exact Table.each_keeps (P := fun u => t.rows <+: u.rows)
      (fun _ _ _ _ kept once => kept.trans (insert_extends keeping once).1)
      (List.prefix_refl _) met

theorem Holding.update_last {assign : Query.Row → Query.Row} {n : Int}
    (met : h.update r assign t n = some (u, made)) : t.last ≤ u.last := by
  unfold update at met
  split at met
  · cases met
    exact Int.le_refl _
  · split at met
    · cases met
    · obtain ⟨m, -, settled⟩ := Option.bind_eq_some_iff.mp met
      exact settle_last settled

theorem Holding.each_update {assign : Query.Row → Query.Row} {numbers : List Int} {made : List ρ}
    (met : t.each (h.update r assign) numbers = some (u, made)) : t.last ≤ u.last :=
  Table.each_keeps (P := fun u => t.last ≤ u.last)
    (fun _ _ _ _ below once => Int.le_trans below (update_last once)) (Int.le_refl _) met

end Tables

def Allowed (args : List Query.Value) (s t : Store) : Directive → Prop
  | .rows _ | .update _ .history _ _ _ | .delete .history _ _ => t = s
  | .delete .index condition _ =>
    t = { s with index := s.index.filter fun r => !picks args condition r.values }
  | .insert r .history _ _ _ =>
    t.index = s.index ∧ t.lastIndex = s.lastIndex ∧ s.lastVersion ≤ t.lastVersion ∧
      (r ≠ .replace → s.versions <+: t.versions)
  | .insert r .index _ _ _ =>
    t.versions = s.versions ∧ t.lastVersion = s.lastVersion ∧ s.lastIndex ≤ t.lastIndex ∧
      (r ≠ .replace → s.index <+: t.index)
  | .update _ .index _ _ _ =>
    t.versions = s.versions ∧ t.lastVersion = s.lastVersion ∧ s.lastIndex ≤ t.lastIndex

variable {args : List Query.Value} {s : Store}

theorem guarded_after (condition : Option Query.Term) (returning : Option (List Query.Term)) :
    (guarded args condition returning s).2 = s := by
  unfold guarded
  split <;> rfl

theorem changed_cases (h : Holding ρ) (returning : Option (List Query.Term))
    (after : Option (Table ρ × List ρ)) :
    (changed h args returning s after).2 = s ∨
      ∃ u made, after = some (u, made) ∧ (changed h args returning s after).2 = h.put s u := by
  cases after with
  | none => exact .inl rfl
  | some met => exact .inr ⟨met.1, met.2, rfl, rfl⟩

theorem perform_allowed (args : List Query.Value) (s : Store) (directive : Directive) :
    Allowed args s (s.perform args directive).2 directive := by
  cases directive with
  | rows plan =>
    simp only [Allowed, perform]
    split <;> rfl
  | insert r relation places plan returning =>
    cases relation with
    | history =>
      simp only [Allowed, perform]
      rcases changed_cases .history returning _ with same | ⟨u, made, met, after⟩
      · rw [same]
        exact ⟨rfl, rfl, Int.le_refl _, fun _ => List.prefix_refl _⟩
      · obtain ⟨rows, -, each⟩ := Option.bind_eq_some_iff.mp met
        rw [after]
        exact ⟨rfl, rfl, Holding.each_insert each⟩
    | index =>
      simp only [Allowed, perform]
      rcases changed_cases .index returning _ with same | ⟨u, made, met, after⟩
      · rw [same]
        exact ⟨rfl, rfl, Int.le_refl _, fun _ => List.prefix_refl _⟩
      · obtain ⟨rows, -, each⟩ := Option.bind_eq_some_iff.mp met
        rw [after]
        exact ⟨rfl, rfl, Holding.each_insert each⟩
  | update r relation values condition returning =>
    cases relation with
    | history => exact guarded_after condition returning
    | index =>
      simp only [Allowed, perform]
      rcases changed_cases .index returning _ with same | ⟨u, made, met, after⟩
      · rw [same]
        exact ⟨rfl, rfl, Int.le_refl _⟩
      · rw [after]
        exact ⟨rfl, rfl, Holding.each_update met⟩
  | delete relation condition returning =>
    cases relation with
    | history => exact guarded_after condition returning
    | index => rfl

theorem query_performed {sql : String} {bindings : List Json} {values : List Query.Value}
    {directive : Directive} (given : bindings.mapM bound = .ok values)
    (resolved : resolved? sql = some (values.length, directive))
    (short : values.any tooLong = false) (s : Store) :
    s.query sql bindings = s.perform values directive := by
  unfold query
  rw [given]
  dsimp only
  rw [resolved]
  dsimp only
  rw [List.take_length, short, if_neg Bool.false_ne_true, if_neg fun other => other rfl]

/-- A statement that is not performed leaves the store as it is. -/
theorem query_cases (sql : String) (args : List Json) (s : Store) :
    (s.query sql args).2 = s ∨
    ∃ values parameters directive, args.mapM bound = .ok values ∧
      resolved? sql = some (parameters, directive) ∧
      s.query sql args = s.perform values directive := by
  unfold query
  cases args.mapM bound with
  | error e => exact .inl rfl
  | ok values =>
    cases resolved? sql with
    | none => exact .inl rfl
    | some resolved =>
      obtain ⟨parameters, directive⟩ := resolved
      dsimp only
      split
      · exact .inl rfl
      · split
        · exact .inl rfl
        · exact .inr ⟨values, parameters, directive, rfl, rfl, rfl⟩

end RecordLedger.Store
