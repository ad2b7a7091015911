/-!
Stable insertion sort by a Boolean order. Sorting keeps every element, so each reader that promises
an order promises nothing else about the list it was given.
-/

namespace RecordLedger.Sort

/-- Puts `x` before the first element it may precede. -/
def insert (le : α → α → Bool) (x : α) : List α → List α
  | [] => [x]
  | y :: ys => if le x y then x :: y :: ys else y :: insert le x ys

/-- Elements that the order does not separate stay in their given order. -/
def sort (le : α → α → Bool) : List α → List α
  | [] => []
  | x :: xs => insert le x (sort le xs)

theorem insert_perm (le : α → α → Bool) (x : α) (xs : List α) :
    (insert le x xs).Perm (x :: xs) := by
  induction xs with
  | nil => exact .refl _
  | cons y ys ih =>
    simp only [insert]
    split
    · exact .refl _
    · exact (ih.cons y).trans (.swap x y ys)

theorem sort_perm (le : α → α → Bool) (xs : List α) : (sort le xs).Perm xs := by
  induction xs with
  | nil => exact .refl _
  | cons x xs ih => exact (insert_perm le x _).trans (ih.cons x)

@[simp] theorem mem_sort {le : α → α → Bool} {a : α} {xs : List α} : a ∈ sort le xs ↔ a ∈ xs :=
  (sort_perm le xs).mem_iff

end RecordLedger.Sort
