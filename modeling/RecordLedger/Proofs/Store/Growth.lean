import RecordLedger.Proofs.Store.Sound

/-! What a store keeps while calls take place: the history only grows at its end, and new index rows
have numbers beyond all that were used before. -/
namespace RecordLedger.Store

structure Later (s t : Store) : Prop where
  history : ∀ r ∈ s.versions, r ∈ t.versions
  last : s.lastIndex ≤ t.lastIndex
  fresh : ∀ row ∈ t.index, row ∈ s.index ∨ s.lastIndex < row.sequence

variable {s t u : Store}

theorem Later.refl (s : Store) : Later s s :=
  ⟨fun _ stored => stored, Int.le_refl _, fun _ stored => .inl stored⟩

theorem Later.trans (first : Later s t) (second : Later t u) : Later s u := by
  refine ⟨fun r stored => second.history r (first.history r stored),
    Int.le_trans first.last second.last, fun row stored => ?_⟩
  rcases second.fresh row stored with old | new
  · exact first.fresh row old
  · exact .inr (Int.lt_of_le_of_lt first.last new)

theorem Effect.later (effect : Effect now s t) : Later s t := by
  cases effect with
  | none => exact .refl s
  | version id tag payload n free =>
    exact { Later.refl s with history := fun r stored => List.mem_append_left _ stored }
  | number n free =>
    obtain ⟨_, rfl⟩ := next?_eq_some_iff.mp free
    exact { Later.refl s with last := Int.le_of_lt (Int.lt_succ _) }
  | entry id tag n free absent =>
    obtain ⟨_, rfl⟩ := next?_eq_some_iff.mp free
    refine ⟨fun _ stored => stored, Int.le_of_lt (Int.lt_succ _), fun row stored => ?_⟩
    rcases List.mem_append.mp stored with old | new
    · exact .inl old
    · rw [List.mem_singleton.mp new]
      exact .inr (Int.lt_succ _)
  | removal id =>
    exact { Later.refl s with fresh := fun row stored => .inl (List.mem_filter.mp stored).1 }

theorem Effect.rows_kept (effect : Effect now s t) : s.versions <+: t.versions := by
  cases effect with
  | version => exact List.prefix_append ..
  | _ => exact List.prefix_refl _

end RecordLedger.Store
