import Mathlib.Algebra.Group.Nat.Defs
import RecordLedger.Text.Numeral

/-! Decimal digits of a number, and how a reader of digits takes them back. -/
namespace RecordLedger.Text.Numeral

theorem digit?_digitChar {d : Nat} (small : d < 10) : digit? (digitChar d) = some d := by
  have all : ∀ d ∈ List.range 10, digit? (digitChar d) = some d := by decide
  exact all d (List.mem_range.mpr small)

theorem foldl_digitsOnto {fuel n : Nat} (rest : List Nat) (fits : n < 10 ^ fuel) :
    (digitsOnto fuel n rest).foldl (fun n d => 10 * n + d) 0 =
      rest.foldl (fun n d => 10 * n + d) n := by
  induction fuel generalizing n rest with
  | zero =>
    obtain rfl : n = 0 := by omega
    rfl
  | succ fuel ih =>
    rw [digitsOnto]
    split
    · rw [List.foldl_cons, Nat.mul_zero, Nat.zero_add]
    · rw [ih _ (by rw [Nat.pow_succ] at fits; omega), List.foldl_cons, Nat.div_add_mod]

theorem lt_pow_succ (n : Nat) : n < 10 ^ (n + 1) :=
  Nat.lt_of_lt_of_le (Nat.lt_pow_self (by decide)) (Nat.pow_le_pow_right (by decide) (by omega))

@[simp] theorem value_digits (n : Nat) : value 10 (digits n) = n :=
  foldl_digitsOnto [] (lt_pow_succ n)

theorem digitsOnto_small {fuel n : Nat} {rest : List Nat} (small : ∀ d ∈ rest, d < 10) :
    ∀ d ∈ digitsOnto fuel n rest, d < 10 := by
  induction fuel generalizing n rest with
  | zero => exact small
  | succ fuel ih =>
    rw [digitsOnto]
    split
    · next one => exact List.forall_mem_cons.mpr ⟨one, small⟩
    · exact ih (List.forall_mem_cons.mpr ⟨Nat.mod_lt _ (by decide), small⟩)

theorem digits_small (n : Nat) : ∀ d ∈ digits n, d < 10 :=
  digitsOnto_small fun _ member => absurd member List.not_mem_nil

theorem digitsOnto_leading {fuel n : Nat} (rest : List Nat) (positive : 0 < n)
    (fits : n < 10 ^ fuel) : ∃ d ds, digitsOnto fuel n rest = d :: ds ∧ d ≠ 0 := by
  induction fuel generalizing n rest with
  | zero => omega
  | succ fuel ih =>
    rw [digitsOnto]
    split
    · exact ⟨n, rest, rfl, by omega⟩
    · exact ih _ (by omega) (by rw [Nat.pow_succ] at fits; omega)

theorem value_lt {ds : List Nat} (small : ∀ d ∈ ds, d < 10) (n : Nat) :
    ds.foldl (fun n d => 10 * n + d) n < (n + 1) * 10 ^ ds.length := by
  induction ds generalizing n with
  | nil => simp
  | cons d ds ih =>
    obtain ⟨first, rest⟩ := List.forall_mem_cons.mp small
    refine Nat.lt_of_lt_of_le (ih rest (10 * n + d)) ?_
    rw [List.length_cons, Nat.pow_succ, Nat.mul_comm (10 ^ ds.length), ← Nat.mul_assoc]
    exact Nat.mul_le_mul_right _ (by omega)

theorem lt_pow_length (n : Nat) : n < 10 ^ (digits n).length := by
  have bound := value_lt (digits_small n) 0
  have same : (digits n).foldl (fun n d => 10 * n + d) 0 = n := value_digits n
  omega

def Leading (ds : List Nat) : Prop := ds = [0] ∨ ∃ d rest, ds = d :: rest ∧ d ≠ 0

theorem digits_leading (n : Nat) : Leading (digits n) := by
  rcases Nat.eq_zero_or_pos n with rfl | positive
  · exact .inl rfl
  · exact .inr (digitsOnto_leading [] positive (lt_pow_succ n))

theorem Leading.ne_nil {ds : List Nat} (leading : Leading ds) : ds ≠ [] := by
  rcases leading with rfl | ⟨d, rest, rfl, _⟩ <;> exact List.cons_ne_nil _ _

theorem le_value (ds : List Nat) (n : Nat) :
    n * 10 ^ ds.length ≤ ds.foldl (fun n d => 10 * n + d) n := by
  induction ds generalizing n with
  | nil => simp
  | cons d ds ih =>
    refine Nat.le_trans ?_ (ih (10 * n + d))
    rw [List.length_cons, Nat.pow_succ, Nat.mul_comm (10 ^ ds.length), ← Nat.mul_assoc]
    exact Nat.mul_le_mul_right _ (by omega)

theorem digits_length_le {n width : Nat} (positive : 0 < width) (fits : n < 10 ^ width) :
    (digits n).length ≤ width := by
  have value := value_digits n
  rcases digits_leading n with zero | ⟨d, ds, shape, nonzero⟩
  · rw [zero]
    exact positive
  · rw [shape] at value ⊢
    have least : 1 * 10 ^ ds.length ≤ n := by
      refine Nat.le_trans (Nat.mul_le_mul_right _ (by omega : 1 ≤ 10 * 0 + d)) ?_
      exact Nat.le_trans (le_value ds _) (Nat.le_of_eq value)
    have fewer : ds.length < width :=
      (Nat.pow_lt_pow_iff_right (by decide)).mp (Nat.lt_of_le_of_lt (by omega) fits)
    exact fewer

theorem foldl_zeros (k n : Nat) (ds : List Nat) :
    (List.replicate k 0 ++ ds).foldl (fun n d => 10 * n + d) n =
      ds.foldl (fun n d => 10 * n + d) (n * 10 ^ k) := by
  induction k generalizing n with
  | zero => rw [List.replicate_zero, List.nil_append, Nat.pow_zero, Nat.mul_one]
  | succ k ih =>
    rw [List.replicate_succ, List.cons_append, List.foldl_cons, ih, Nat.pow_succ, Nat.add_zero,
      Nat.mul_comm (10 ^ k), ← Nat.mul_assoc, Nat.mul_comm 10 n]

theorem padded_digits {n width : Nat} (positive : 0 < width) (fits : n < 10 ^ width) :
    ∃ ds, padded width n = ds.map digitChar ∧ ds.length = width ∧ (∀ d ∈ ds, d < 10) ∧
      value 10 ds = n := by
  have length : (ofNat n).length = (digits n).length := List.length_map ..
  have short := digits_length_le positive fits
  refine ⟨List.replicate (width - (digits n).length) 0 ++ digits n, ?_, ?_, ?_, ?_⟩
  · rw [padded, length, List.map_append, List.map_replicate]
    rfl
  · rw [List.length_append, List.length_replicate]
    omega
  · exact List.forall_mem_append.mpr
      ⟨fun d member => List.eq_of_mem_replicate member ▸ (by decide), digits_small n⟩
  · rw [value, foldl_zeros, Nat.zero_mul]
    exact value_digits n

def Stops (cs : List Char) : Prop := ∀ c ∈ cs.head?, digit? c = none

theorem takeDigits_stops {cs : List Char} (stops : Stops cs) : takeDigits cs = ([], cs) := by
  cases cs with
  | nil => rfl
  | cons c cs => rw [takeDigits, stops c rfl]

theorem takeDigits_append {ds : List Nat} {cs : List Char} (small : ∀ d ∈ ds, d < 10)
    (stops : Stops cs) : takeDigits (ds.map digitChar ++ cs) = (ds, cs) := by
  induction ds with
  | nil => exact takeDigits_stops stops
  | cons d ds ih =>
    obtain ⟨first, rest⟩ := List.forall_mem_cons.mp small
    rw [List.map_cons, List.cons_append, takeDigits, digit?_digitChar first, ih rest]

theorem takeDigits_ofNat {n : Nat} {cs : List Char} (stops : Stops cs) :
    takeDigits (ofNat n ++ cs) = (digits n, cs) :=
  takeDigits_append (digits_small n) stops

end RecordLedger.Text.Numeral
