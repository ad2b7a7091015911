import RecordLedger.Decimal.Shortest
import RecordLedger.Proofs.Decimal.Rounding
import RecordLedger.Proofs.Text.Numerals

/-! The digits that a binary64 number is written with: few, and a decimal no further up than the
number's interval reaches. -/
namespace RecordLedger.Decimal.Binary64

open Text.Numeral (digits)

def upper (x : Binary64) : ℚ := (x.significand + 1 / 2) * 2 ^ x.exponent

theorem size_le_upper (x : Binary64) : x.size ≤ x.upper := by
  have unit_pos : (0 : ℚ) < 2 ^ x.exponent := by positivity
  unfold size upper
  linarith

theorem tens_eq (e : Int) : ((10 ^ e.toNat : Nat) : ℚ) = 10 ^ e * (10 ^ (-e).toNat : Nat) := by
  rcases Int.le_total 0 e with nonneg | negative
  · have down : (-e).toNat = 0 := by omega
    have up : (e.toNat : Int) = e := by omega
    rw [down, pow_zero, Nat.cast_one, mul_one, Nat.cast_pow, Nat.cast_ofNat, ← zpow_natCast, up]
  · have up : e.toNat = 0 := by omega
    have down : ((-e).toNat : Int) = -e := by omega
    rw [up, pow_zero, Nat.cast_one, Nat.cast_pow, Nat.cast_ofNat, ← zpow_natCast, down,
      ← zpow_add₀ (by norm_num), add_neg_cancel, zpow_zero]

theorem quotient_lt {num den j : Nat} (positive : 0 < den) (less : num * 10 ^ j < den) :
    (num : ℚ) / den < 10 ^ (-((j + 1 : Nat) : Int) + 1) := by
  have den_pos : (0 : ℚ) < den := by exact_mod_cast positive
  rw [div_lt_iff₀ den_pos, show (-((j + 1 : Nat) : Int) + 1) = -(j : Int) by omega, zpow_neg,
    zpow_natCast, inv_mul_eq_div, lt_div_iff₀ (by positivity)]
  exact_mod_cast less

theorem below_bound {num den : Nat} (positive : 0 < den) (fuel j : Nat)
    (less : num * 10 ^ j < den) :
    (num : ℚ) / den < 10 ^ (decimalExponent.below den fuel (j + 1) (num * 10 ^ (j + 1)) + 1) := by
  induction fuel generalizing j with
  | zero => exact quotient_lt positive less
  | succ fuel ih =>
    rw [decimalExponent.below]
    split
    · exact quotient_lt positive less
    · next missed =>
      rw [mul_assoc, ← pow_succ]
      exact ih (j + 1) (not_le.mp missed)

/-- The power of ten of a quotient's first digit is not exceeded by more than that digit. -/
theorem lt_decimalExponent (num : Nat) {den : Nat} (positive : 0 < den) :
    (num : ℚ) / den < 10 ^ (decimalExponent num den + 1) := by
  unfold decimalExponent
  split
  · have den_pos : (0 : ℚ) < den := by exact_mod_cast positive
    have whole : num < 10 ^ (digits (num / den)).length * den := by
      have digits_bound := Text.Numeral.lt_pow_length (num / den)
      exact (Nat.div_lt_iff_lt_mul positive).mp digits_bound
    rw [sub_add_cancel, zpow_natCast, div_lt_iff₀ den_pos]
    exact_mod_cast whole
  · next small =>
    have bound := below_bound positive 400 0 (by omega : num * 10 ^ 0 < den)
    rwa [zero_add, pow_one] at bound

theorem quarterGaps_upper (x : Binary64) : x.quarterGaps.2 = 2 := by
  unfold quarterGaps
  split <;> rfl

theorem quarterGaps_lower (x : Binary64) : x.quarterGaps.1 ≤ 2 := by
  unfold quarterGaps
  split <;> decide

/-- A point of the grid is next to the number, and no further up than its interval. -/
theorem onGrid_cases {x : Binary64} {t : Int} {c : Nat} (found : x.onGrid t = some c) :
    let unit := (powers (x.exponent - 2)).1 * 10 ^ (-t).toNat
    let step := (powers (x.exponent - 2)).2 * 10 ^ t.toNat
    c * step ≤ (4 * x.significand + 2) * unit ∧ c ≤ 4 * x.significand * unit / step + 1 := by
  intro unit step
  have gap := x.quarterGaps_upper
  have inside_le {lo hi p : Nat} {closed : Bool} (ordered : lo ≤ hi)
      (inside : (decide (lo < p) && decide (p < hi) || closed && (p == lo || p == hi)) = true) :
      p ≤ hi := by
    simp only [Bool.or_eq_true, Bool.and_eq_true, decide_eq_true_eq, beq_iff_eq] at inside
    omega
  simp only [onGrid, gap, Nat.pow_eq] at found
  have ordered : (4 * x.significand - x.quarterGaps.1) * unit ≤ (4 * x.significand + 2) * unit :=
    Nat.mul_le_mul_right _ (by omega)
  have nearest := roundDiv_le (4 * x.significand * unit) step
  split at found
  · next _ after =>
    cases found
    refine ⟨?_, nearest⟩
    exact (Nat.mul_le_mul_right _ nearest).trans (inside_le ordered after)
  · next here _ =>
    cases found
    exact ⟨inside_le ordered here, Nat.le_succ _⟩
  · next _ after =>
    cases found
    exact ⟨inside_le ordered after, Nat.le_refl _⟩
  · cases found

/-- The interval of a number other than zero is above zero. -/
theorem onGrid_pos {x : Binary64} {t : Int} {c : Nat} (other : x.isZero = false)
    (found : x.onGrid t = some c) : 0 < c := by
  have some_units : x.significand ≠ 0 := by simpa [isZero] using other
  have unit_pos : 0 < (powers (x.exponent - 2)).1 * 10 ^ (-t).toNat :=
    Nat.mul_pos (powers_pos _).1 (Nat.pow_pos (by decide))
  have gap := x.quarterGaps_lower
  simp only [onGrid, Nat.pow_eq] at found
  generalize (powers (x.exponent - 2)).1 * 10 ^ (-t).toNat = unit at *
  generalize (powers (x.exponent - 2)).2 * 10 ^ t.toNat = step at *
  have lower : 0 < (4 * x.significand - x.quarterGaps.1) * unit := Nat.mul_pos (by omega) unit_pos
  have upper : 0 < (4 * x.significand + x.quarterGaps.2) * unit := Nat.mul_pos (by omega) unit_pos
  have inside_pos {lo hi c : Nat} {closed : Bool} (low : 0 < lo) (high : 0 < hi)
      (inside : (decide (lo < c * step) && decide (c * step < hi) ||
        closed && (c * step == lo || c * step == hi)) = true) : 0 < c := by
    refine Nat.pos_of_ne_zero fun none_left => ?_
    simp only [none_left, Nat.zero_mul, Bool.or_eq_true, Bool.and_eq_true, decide_eq_true_eq,
      beq_iff_eq] at inside
    omega
  split at found
  · next here _ =>
    cases found
    exact (inside_pos lower upper here).trans_le (div_le_roundDiv _ _)
  · next here _ =>
    cases found
    exact inside_pos lower upper here
  · cases found
    exact Nat.succ_pos _
  · cases found

/-- So many digits are enough for a number of that size. -/
theorem onGrid_bounds {x : Binary64} {t : Int} {c n : Nat} (found : x.onGrid t = some c)
    (small : x.size < 10 ^ (t + n)) : c * 10 ^ t ≤ x.upper ∧ c ≤ 10 ^ n := by
  obtain ⟨reaches, near⟩ := onGrid_cases found
  have up := powers_eq (x.exponent - 2)
  obtain ⟨_, down_pos⟩ := powers_pos (x.exponent - 2)
  generalize (powers (x.exponent - 2)).1 = u at *
  generalize (powers (x.exponent - 2)).2 = d at *
  have tens := tens_eq t
  have tens_pos : 0 < 10 ^ (-t).toNat := Nat.pow_pos (by decide)
  generalize 10 ^ (-t).toNat = w at *
  have quarter : (2 : ℚ) ^ (x.exponent - 2) * 4 = 2 ^ x.exponent := by
    rw [show (4 : ℚ) = 2 ^ (2 : Int) by norm_num, ← zpow_add₀ (by norm_num), sub_add_cancel]
  have scale_pos : (0 : ℚ) < d * w := by exact_mod_cast Nat.mul_pos down_pos tens_pos
  have step : ((d * 10 ^ t.toNat : Nat) : ℚ) = 10 ^ t * (d * w) := by
    rw [Nat.cast_mul, tens]
    ring
  have unit : ((4 * x.significand * (u * w) : Nat) : ℚ) = x.size * (d * w) := by
    push_cast
    rw [up, size, ← quarter]
    ring
  constructor
  · refine le_of_mul_le_mul_right ?_ scale_pos
    have reaches : ((c * (d * 10 ^ t.toNat) : Nat) : ℚ) ≤
        ((4 * x.significand + 2) * (u * w) : Nat) := by exact_mod_cast reaches
    rw [Nat.cast_mul, step] at reaches
    push_cast at reaches
    rw [up] at reaches
    calc (c : ℚ) * 10 ^ t * (d * w) ≤ (4 * x.significand + 2) * (2 ^ (x.exponent - 2) * d * w) := by
          linarith
      _ = x.upper * (d * w) := by
          rw [upper, ← quarter]
          ring
  · have less : 4 * x.significand * (u * w) < 10 ^ n * (d * 10 ^ t.toNat) := by
      have less : ((4 * x.significand * (u * w) : Nat) : ℚ) <
          ((10 ^ n * (d * 10 ^ t.toNat) : Nat) : ℚ) := by
        rw [unit, Nat.cast_mul, step]
        calc x.size * (d * w) < 10 ^ (t + n) * (d * w) := mul_lt_mul_of_pos_right small scale_pos
          _ = (10 ^ n : Nat) * (10 ^ t * (d * w)) := by
              rw [zpow_add₀ (by norm_num), zpow_natCast, Nat.cast_pow, Nat.cast_ofNat]
              ring
      exact_mod_cast less
    have floor := (Nat.div_lt_iff_lt_mul (Nat.mul_pos down_pos (Nat.pow_pos (by decide)))).mpr less
    omega

/-- Trailing zeros count in the exponent. -/
theorem stripZeros_bounds (fuel n : Nat) (e : Int) :
    ((stripZeros fuel n e).digits : ℚ) * 10 ^ (stripZeros fuel n e).exponent = n * 10 ^ e ∧
      (stripZeros fuel n e).digits ≤ n := by
  induction fuel generalizing n e with
  | zero => exact ⟨rfl, Nat.le_refl n⟩
  | succ fuel ih =>
    rw [stripZeros]
    split
    · next strip =>
      obtain ⟨same, fewer⟩ := ih (n / 10) (e + 1)
      have zero : n % 10 = 0 := by simpa using (Bool.and_eq_true_iff.mp strip).1
      have split : n = n / 10 * 10 := by omega
      refine ⟨?_, fewer.trans (Nat.div_le_self n 10)⟩
      rw [same, zpow_add_one₀ (by norm_num)]
      conv_rhs => rw [split, Nat.cast_mul, Nat.cast_ofNat]
      ring
    · exact ⟨rfl, Nat.le_refl n⟩

theorem stripZeros_pos (fuel : Nat) {n : Nat} (e : Int) (positive : 0 < n) :
    0 < (stripZeros fuel n e).digits := by
  induction fuel generalizing n e with
  | zero => exact positive
  | succ fuel ih =>
    rw [stripZeros]
    split
    · next strip =>
      have zero : n % 10 = 0 := by simpa using (Bool.and_eq_true_iff.mp strip).1
      exact ih (e + 1) (by omega)
    · exact positive

theorem search_bounds {x : Binary64} {k : Int} (small : x.size < 10 ^ (k + 1)) (fuel n : Nat)
    (few : fuel + n ≤ 18) :
    ((shortest.search x k fuel n).digits : ℚ) * 10 ^ (shortest.search x k fuel n).exponent ≤
      x.upper ∧ (shortest.search x k fuel n).digits ≤ 10 ^ 17 := by
  induction fuel generalizing n with
  | zero =>
    refine ⟨?_, Nat.zero_le _⟩
    rw [shortest.search, Nat.cast_zero, zero_mul]
    exact x.size_nonneg.trans x.size_le_upper
  | succ fuel ih =>
    rw [shortest.search]
    split
    · next c found =>
      have small : x.size < 10 ^ (k + 1 - n + n) := by rwa [sub_add_cancel]
      obtain ⟨reaches, bound⟩ := onGrid_bounds found small
      obtain ⟨same, fewer⟩ := stripZeros_bounds 20 c (k + 1 - n)
      refine ⟨same ▸ reaches, fewer.trans (bound.trans ?_)⟩
      exact Nat.pow_le_pow_right (by decide) (by omega)
    · exact ih (n + 1) (by omega)

/-- The digits are few, and stand for no more than the end of the number's interval. -/
theorem shortest_bounds (x : Binary64) :
    (x.shortest.digits : ℚ) * 10 ^ x.shortest.exponent ≤ x.upper ∧ x.shortest.digits ≤ 10 ^ 17 := by
  unfold shortest
  split
  · refine ⟨?_, Nat.zero_le _⟩
    rw [Nat.cast_zero, zero_mul]
    exact x.size_nonneg.trans x.size_le_upper
  · refine search_bounds ?_ 17 1 (Nat.le_refl _)
    rw [size_eq_ratio]
    exact lt_decimalExponent x.ratio.1 x.ratio_pos

theorem search_zero {x : Binary64} {k : Int} {fuel n : Nat} (other : x.isZero = false)
    (zero : (shortest.search x k fuel n).digits = 0) :
    (shortest.search x k fuel n).exponent = 0 := by
  induction fuel generalizing n with
  | zero => rfl
  | succ fuel ih =>
    rw [shortest.search] at zero ⊢
    split at zero
    · next c found =>
      exact absurd zero (Nat.ne_of_gt (stripZeros_pos 20 _ (onGrid_pos other found)))
    · exact ih zero

/-- Without digits there is no power of ten either. -/
theorem shortest_zero {x : Binary64} (zero : x.shortest.digits = 0) : x.shortest.exponent = 0 := by
  unfold shortest at zero ⊢
  split
  · rfl
  · next other =>
    rw [if_neg other] at zero
    exact search_zero (Bool.eq_false_iff.mpr other) zero

end RecordLedger.Decimal.Binary64
