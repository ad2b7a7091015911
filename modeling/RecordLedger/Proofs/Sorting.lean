import RecordLedger.Sort

/-! What insertion sort returns: a list in order, which is the given list where that was in order
and its reverse where no element could precede a later one. -/
namespace RecordLedger.Sort

variable {le : α → α → Bool}

theorem insert_sorted (total : ∀ a b, le a b = true ∨ le b a = true)
    (trans : ∀ a b c, le a b = true → le b c = true → le a c = true) (x : α) (xs : List α)
    (sorted : xs.Pairwise fun a b => le a b = true) :
    (insert le x xs).Pairwise fun a b => le a b = true := by
  induction xs with
  | nil => simp [insert]
  | cons y ys ih =>
    obtain ⟨first, rest⟩ := List.pairwise_cons.mp sorted
    rw [insert]
    split
    · next front =>
      refine List.pairwise_cons.mpr ⟨?_, sorted⟩
      intro z member
      rcases List.mem_cons.mp member with rfl | member
      · exact front
      · exact trans x y z front (first z member)
    · next back =>
      refine List.pairwise_cons.mpr ⟨?_, ih rest⟩
      intro z member
      rcases List.mem_cons.mp ((insert_perm le x ys).mem_iff.mp member) with rfl | member
      · exact (total z y).resolve_left back
      · exact first z member

theorem sort_sorted (total : ∀ a b, le a b = true ∨ le b a = true)
    (trans : ∀ a b c, le a b = true → le b c = true → le a c = true) (xs : List α) :
    (sort le xs).Pairwise fun a b => le a b = true := by
  induction xs with
  | nil => exact .nil
  | cons x xs ih => exact insert_sorted total trans x _ ih

theorem sort_eq_self (xs : List α) (sorted : xs.Pairwise fun a b => le a b = true) :
    sort le xs = xs := by
  induction xs with
  | nil => rfl
  | cons x xs ih =>
    obtain ⟨first, rest⟩ := List.pairwise_cons.mp sorted
    rw [sort, ih rest]
    cases xs with
    | nil => rfl
    | cons y ys => simp [insert, first y List.mem_cons_self]

theorem insert_eq_append (x : α) (xs : List α) (last : ∀ y ∈ xs, le x y = false) :
    insert le x xs = xs ++ [x] := by
  induction xs with
  | nil => rfl
  | cons y ys ih =>
    have rest := ih fun z member => last z (List.mem_cons_of_mem y member)
    simp [insert, last y List.mem_cons_self, rest]

theorem sort_eq_reverse (xs : List α) (opposed : xs.Pairwise fun a b => le a b = false) :
    sort le xs = xs.reverse := by
  induction xs with
  | nil => rfl
  | cons x xs ih =>
    obtain ⟨first, rest⟩ := List.pairwise_cons.mp opposed
    rw [sort, ih rest, List.reverse_cons]
    exact insert_eq_append x _ fun y member => first y (List.mem_reverse.mp member)

theorem insert_eq_cons (x : α) (xs : List α) (first : ∀ y ∈ xs, le x y = true) :
    insert le x xs = x :: xs := by
  cases xs with
  | nil => rfl
  | cons y ys => rw [insert, if_pos (first y List.mem_cons_self)]

section Filter

variable (total : ∀ a b, le a b = true ∨ le b a = true)
  (trans : ∀ a b c, le a b = true → le b c = true → le a c = true) (p : α → Bool)
include trans

theorem filter_insert (x : α) (xs : List α) (sorted : xs.Pairwise fun a b => le a b = true) :
    (insert le x xs).filter p = if p x then insert le x (xs.filter p) else xs.filter p := by
  induction xs with
  | nil => cases test : p x <;> simp [insert, test]
  | cons y ys ih =>
    obtain ⟨first, rest⟩ := List.pairwise_cons.mp sorted
    rw [insert]
    split
    · next front =>
      have below : ∀ z ∈ (y :: ys).filter p, le x z = true := by
        intro z member
        rcases List.mem_cons.mp (List.mem_filter.mp member).1 with rfl | behind
        · exact front
        · exact trans x y z front (first z behind)
      rw [List.filter_cons, insert_eq_cons x _ below]
    · next back =>
      rw [List.filter_cons, ih rest, List.filter_cons]
      cases p y <;> cases p x <;> simp [insert, back]

include total in
/-- What is picked from a sorted list is sorted already. -/
theorem sort_filter (xs : List α) : sort le (xs.filter p) = (sort le xs).filter p := by
  induction xs with
  | nil => rfl
  | cons x xs ih =>
    rw [sort, filter_insert trans p x _ (sort_sorted total trans xs), List.filter_cons, ← ih]
    cases p x <;> rfl

end Filter

/-- Orders that agree on a list sort it alike. -/
theorem sort_congr {ge : α → α → Bool} (xs : List α)
    (same : ∀ a ∈ xs, ∀ b ∈ xs, le a b = ge a b) : sort le xs = sort ge xs := by
  have insert_congr (x : α) (ys : List α) (agree : ∀ y ∈ ys, le x y = ge x y) :
      insert le x ys = insert ge x ys := by
    induction ys with
    | nil => rfl
    | cons y ys ih =>
      rw [insert, insert, agree y List.mem_cons_self,
        ih fun z member => agree z (List.mem_cons_of_mem y member)]
  induction xs with
  | nil => rfl
  | cons x xs ih =>
    rw [sort, sort, ← ih fun a here b there =>
      same a (List.mem_cons_of_mem x here) b (List.mem_cons_of_mem x there)]
    refine insert_congr x _ fun y member => ?_
    exact same x List.mem_cons_self y (List.mem_cons_of_mem x (mem_sort.mp member))

end RecordLedger.Sort
