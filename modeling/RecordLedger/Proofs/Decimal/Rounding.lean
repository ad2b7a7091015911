import Mathlib.Algebra.Order.Field.Power
import Mathlib.Data.Nat.Log
import Mathlib.Tactic.Linarith
import Mathlib.Tactic.NormNum
import Mathlib.Tactic.Positivity
import Mathlib.Tactic.Ring
import RecordLedger.Decimal.Binary64

/-! Rounding to binary64, said of rational numbers: a quotient below the middle between the greatest
number and the next power of two has a rounding, which is off by half a unit at most. -/
namespace RecordLedger.Decimal.Binary64

def size (x : Binary64) : ℚ := x.significand * 2 ^ x.exponent

structure Finite (x : Binary64) : Prop where
  significand : x.significand < 2 ^ 53
  exponent : x.exponent ≤ greatestExponent

/-- The least quotient that has no rounding: half a unit above the greatest number. -/
def overflow : Nat := (2 ^ 54 - 1) * 2 ^ 970

theorem overflow_eq : (overflow : ℚ) = (2 ^ 54 - 1) * 2 ^ (970 : Int) := by
  rw [overflow, Nat.cast_mul, Nat.cast_pow, Nat.cast_sub (by norm_num), Nat.cast_pow,
    Nat.cast_ofNat, Nat.cast_one, show (970 : Int) = (970 : Nat) from rfl, zpow_natCast]

theorem powers_pos (e : Int) : 0 < (powers e).1 ∧ 0 < (powers e).2 :=
  ⟨Nat.pow_pos (by decide), Nat.pow_pos (by decide)⟩

theorem powers_eq (e : Int) : ((powers e).1 : ℚ) = 2 ^ e * (powers e).2 := by
  rcases Int.le_total 0 e with nonneg | negative
  · have down : (-e).toNat = 0 := by omega
    have up : (e.toNat : Int) = e := by omega
    simp only [powers, down, Nat.pow_eq, pow_zero, Nat.cast_one, mul_one, Nat.cast_pow,
      Nat.cast_ofNat]
    rw [← zpow_natCast, up]
  · have up : e.toNat = 0 := by omega
    have down : ((-e).toNat : Int) = -e := by omega
    simp only [powers, up, Nat.pow_eq, pow_zero, Nat.cast_one, Nat.cast_pow, Nat.cast_ofNat]
    rw [← zpow_natCast, down, ← zpow_add₀ (by norm_num), add_neg_cancel, zpow_zero]

theorem ratio_pos (x : Binary64) : 0 < x.ratio.2 := (powers_pos x.exponent).2

theorem ratio_eq (x : Binary64) : (x.ratio.1 : ℚ) = x.size * x.ratio.2 := by
  simp only [ratio, size, Nat.cast_mul, powers_eq, mul_assoc]

/-- A power of two is at most a quotient exactly if the cross products say so. -/
theorem powers_le_iff {num den : Nat} (positive : 0 < den) (e : Int) :
    den * (powers e).1 ≤ num * (powers e).2 ↔ (2 : ℚ) ^ e ≤ num / den := by
  have den_pos : (0 : ℚ) < den := by exact_mod_cast positive
  have down_pos : (0 : ℚ) < (powers e).2 := by exact_mod_cast (powers_pos e).2
  rw [le_div_iff₀ den_pos, ← mul_le_mul_iff_left₀ down_pos, ← Nat.cast_le (α := ℚ), Nat.cast_mul,
    Nat.cast_mul, powers_eq]
  ring_nf

theorem roundDiv_bound (num : Nat) {den : Nat} (positive : 0 < den) :
    2 * (den * roundDiv num den) ≤ 2 * num + den := by
  have split := Nat.div_add_mod num den
  have less := Nat.mod_lt num positive
  unfold roundDiv
  dsimp only
  split
  · next up =>
    simp only [Bool.or_eq_true, decide_eq_true_eq, Bool.and_eq_true, beq_iff_eq] at up
    rw [Nat.mul_add, Nat.mul_one]
    omega
  · omega

theorem roundDiv_le (num den : Nat) : roundDiv num den ≤ num / den + 1 := by
  unfold roundDiv
  dsimp only
  split <;> omega

theorem div_le_roundDiv (num den : Nat) : num / den ≤ roundDiv num den := by
  unfold roundDiv
  dsimp only
  split <;> omega

theorem roundDiv_one (num : Nat) : roundDiv num 1 = num := by
  simp [roundDiv, Nat.mod_one]

def leading (num den : Nat) : Int :=
  let k : Int := (num.log2 : Int) - (den.log2 : Int)
  if den * (powers k).1 ≤ num * (powers k).2 then k else k - 1

def unit (num den : Nat) : Int := max (leading num den - 52) leastExponent

def units (num den : Nat) : Nat :=
  roundDiv (num * (powers (unit num den)).2) (den * (powers (unit num den)).1)

theorem round_eq (negative : Bool) {num : Nat} (den : Nat) (positive : 0 < num) :
    round negative num den =
      let (m, e) := if units num den = 2 ^ 53 then (2 ^ 52, unit num den + 1)
        else (units num den, unit num den)
      if greatestExponent < e then none else some ⟨negative, m, e⟩ := by
  have other : (num == 0) = false := by simpa using Nat.ne_of_gt positive
  have exponent : unit num den = max (if den * (powers ((num.log2 : Int) - den.log2)).1 ≤
      num * (powers ((num.log2 : Int) - den.log2)).2 then (num.log2 : Int) - den.log2 - 52
      else (num.log2 : Int) - den.log2 - 53) leastExponent := by
    simp only [unit, leading]
    split
    · rfl
    · congr 1
      omega
  simp only [round, other, Bool.false_eq_true, if_false, ← exponent, beq_iff_eq, Nat.pow_eq]
  rfl

variable {num den : Nat}

theorem leading_bounds (positive : 0 < num) (below : 0 < den) :
    (2 : ℚ) ^ leading num den ≤ num / den ∧ (num : ℚ) / den < 2 ^ (leading num den + 1) := by
  have den_pos : (0 : ℚ) < den := by exact_mod_cast below
  have num_low : (2 : ℚ) ^ (num.log2 : Int) ≤ num := by
    exact_mod_cast Nat.log2_self_le (Nat.ne_of_gt positive)
  have num_high : (num : ℚ) < 2 ^ ((num.log2 : Int) + 1) := by
    exact_mod_cast Nat.lt_log2_self (n := num)
  have den_low : (2 : ℚ) ^ (den.log2 : Int) ≤ den := by
    exact_mod_cast Nat.log2_self_le (Nat.ne_of_gt below)
  have den_high : (den : ℚ) < 2 ^ ((den.log2 : Int) + 1) := by
    exact_mod_cast Nat.lt_log2_self (n := den)
  have low : (2 : ℚ) ^ ((num.log2 : Int) - den.log2 - 1) ≤ num / den := by
    rw [le_div_iff₀ den_pos]
    calc (2 : ℚ) ^ ((num.log2 : Int) - den.log2 - 1) * den
        ≤ 2 ^ ((num.log2 : Int) - den.log2 - 1) * 2 ^ ((den.log2 : Int) + 1) := by
          gcongr
      _ = 2 ^ (num.log2 : Int) := by
          rw [← zpow_add₀ (by norm_num)]
          congr 1
          omega
      _ ≤ num := num_low
  have high : (num : ℚ) / den < 2 ^ ((num.log2 : Int) - den.log2 + 1) := by
    rw [div_lt_iff₀ den_pos]
    calc (num : ℚ) < 2 ^ ((num.log2 : Int) + 1) := num_high
      _ = 2 ^ ((num.log2 : Int) - den.log2 + 1) * 2 ^ (den.log2 : Int) := by
          rw [← zpow_add₀ (by norm_num)]
          congr 1
          omega
      _ ≤ 2 ^ ((num.log2 : Int) - den.log2 + 1) * den := by gcongr
  unfold leading
  dsimp only
  split
  · next reached => exact ⟨(powers_le_iff below _).mp reached, high⟩
  · next missed =>
    have less := not_le.mp (mt (powers_le_iff below _).mpr missed)
    exact ⟨low, by rwa [sub_add_cancel]⟩

theorem unit_low (positive : 0 < num) (below : 0 < den) (normal : unit num den ≠ leastExponent) :
    (2 : ℚ) ^ (unit num den + 52) ≤ num / den := by
  have exponent : unit num den = leading num den - 52 := by
    unfold unit at normal ⊢
    omega
  rw [exponent, sub_add_cancel]
  exact (leading_bounds positive below).1

theorem unit_high (positive : 0 < num) (below : 0 < den) :
    (num : ℚ) / den < 2 ^ (unit num den + 53) := by
  refine (leading_bounds positive below).2.trans_le (zpow_le_zpow_right₀ (by norm_num) ?_)
  unfold unit
  omega

/-- Rounding is off by half a unit at most. -/
theorem units_le (below : 0 < den) :
    (units num den : ℚ) * 2 ^ unit num den ≤ num / den + 2 ^ unit num den / 2 := by
  have den_pos : (0 : ℚ) < den := by exact_mod_cast below
  obtain ⟨up, down⟩ := powers_pos (unit num den)
  have down_pos : (0 : ℚ) < (powers (unit num den)).2 := by exact_mod_cast down
  have bound : (2 * (den * (powers (unit num den)).1 * units num den) : ℚ) ≤
      2 * (num * (powers (unit num den)).2) + den * (powers (unit num den)).1 := by
    exact_mod_cast roundDiv_bound (num * (powers (unit num den)).2) (Nat.mul_pos below up)
  rw [powers_eq] at bound
  have scaled : ((units num den : ℚ) * 2 ^ unit num den - 2 ^ unit num den / 2) * den ≤ num := by
    refine le_of_mul_le_mul_right ?_ down_pos
    linarith
  rw [← le_div_iff₀ den_pos] at scaled
  linarith

/-- As many units as are near a quotient are no more than those that it is nearer to. -/
theorem le_of_units {m n : Nat} {u q : ℚ} (positive : 0 < u) (near : m * u ≤ q + u / 2)
    (less : q < (n + 1 / 2) * u) : m ≤ n := by
  have small : (m : ℚ) < n + 1 := by
    refine lt_of_mul_lt_mul_right ?_ positive.le
    linarith
  exact Nat.lt_succ_iff.mp (by exact_mod_cast small)

theorem units_le_pow (positive : 0 < num) (below : 0 < den) : units num den ≤ 2 ^ 53 := by
  have unit_pos : (0 : ℚ) < 2 ^ unit num den := by positivity
  refine le_of_units unit_pos (units_le below) ((unit_high positive below).trans_le ?_)
  rw [zpow_add₀ (by norm_num)]
  norm_num
  linarith

theorem round_zero (negative : Bool) (den : Nat) : round negative 0 den = some (zero negative) :=
  rfl

/-- A rounding is in range, and off by half a unit at most. -/
theorem round_some {negative : Bool} {y : Binary64} (positive : 0 < num) (below : 0 < den)
    (rounded : round negative num den = some y) :
    y.Finite ∧ y.size = units num den * 2 ^ unit num den := by
  rw [round_eq negative den positive] at rounded
  have bound := units_le_pow positive below
  by_cases carry : units num den = 2 ^ 53
  · rw [if_pos carry] at rounded
    dsimp only at rounded
    split at rounded
    · cases rounded
    · next fits =>
      cases rounded
      refine ⟨⟨by norm_num, not_lt.mp fits⟩, ?_⟩
      rw [size, carry]
      simp only [Nat.cast_pow, Nat.cast_ofNat, zpow_add_one₀ (two_ne_zero' ℚ)]
      ring
  · rw [if_neg carry] at rounded
    dsimp only at rounded
    split at rounded
    · cases rounded
    · next fits =>
      cases rounded
      exact ⟨⟨Nat.lt_of_le_of_ne bound carry, not_lt.mp fits⟩, rfl⟩

theorem zero_finite (negative : Bool) : (zero negative).Finite :=
  ⟨Nat.pow_pos (by decide), (by decide : leastExponent ≤ greatestExponent)⟩

theorem round_finite {negative : Bool} {y : Binary64} (below : 0 < den)
    (rounded : round negative num den = some y) : y.Finite := by
  rcases Nat.eq_zero_or_pos num with rfl | positive
  · cases rounded
    exact zero_finite negative
  · exact (round_some positive below rounded).1

/-- A rounding of what is not small is larger by one part in `2 ^ 53` at most. -/
theorem round_size_le {negative : Bool} {y : Binary64} (below : 0 < den)
    (large : 1 ≤ (num : ℚ) / den) (rounded : round negative num den = some y) :
    y.size ≤ num / den * (1 + 1 / 2 ^ 53) := by
  have positive : 0 < num := by
    rcases Nat.eq_zero_or_pos num with rfl | positive
    · norm_num at large
    · exact positive
  have half : (2 : ℚ) ^ unit num den / 2 ≤ num / den * (1 / 2 ^ 53) := by
    by_cases least : unit num den = leastExponent
    · rw [least]
      calc (2 : ℚ) ^ leastExponent / 2 ≤ 2 ^ (-52 : Int) / 2 := by
            gcongr
            · norm_num
            · decide
        _ = 1 * (1 / 2 ^ 53) := by norm_num
        _ ≤ num / den * (1 / 2 ^ 53) := by gcongr
    · have reached := unit_low positive below least
      rw [zpow_add₀ (by norm_num)] at reached
      norm_num at reached ⊢
      linarith
  rw [(round_some positive below rounded).2]
  have near := @units_le num den below
  linarith

/-- Integers of 53 bits are numbers. -/
theorem round_size_small {negative : Bool} {y : Binary64} {n : Nat} (small : n < 2 ^ 53)
    (rounded : round negative n 1 = some y) : y.size = n := by
  rcases Nat.eq_zero_or_pos n with rfl | positive
  · cases rounded
    simp [size, zero]
  · have whole : unit n 1 ≤ 0 := by
      by_cases least : unit n 1 = leastExponent
      · rw [least]
        decide
      · have reached := unit_low positive Nat.one_pos least
        have less : (n : ℚ) / (1 : Nat) < 2 ^ (53 : Int) := by
          rw [Nat.cast_one, div_one]
          exact_mod_cast small
        have := (zpow_lt_zpow_iff_right₀ (by norm_num)).mp (reached.trans_lt less)
        omega
    have up : (powers (unit n 1)).1 = 1 := by
      rw [powers, Int.toNat_of_nonpos whole]
    have exact_units : units n 1 = n * (powers (unit n 1)).2 := by
      rw [units, up, roundDiv_one]
    have cancel := powers_eq (unit n 1)
    rw [up, Nat.cast_one] at cancel
    rw [(round_some positive Nat.one_pos rounded).2, exact_units, Nat.cast_mul, mul_assoc,
      mul_comm ((powers (unit n 1)).2 : ℚ), ← cancel, mul_one]

/-- Whatever is less than the bound has a rounding. -/
theorem round_isSome (negative : Bool) (below : 0 < den) (less : (num : ℚ) / den < overflow) :
    ∃ y, round negative num den = some y := by
  rcases Nat.eq_zero_or_pos num with rfl | positive
  · exact ⟨_, round_zero negative den⟩
  · rw [round_eq negative den positive]
    have normal : unit num den ≤ greatestExponent := by
      by_cases least : unit num den = leastExponent
      · rw [least]
        decide
      · have reached := (unit_low positive below least).trans_lt less
        have bound : (overflow : ℚ) < 2 ^ (1024 : Int) := by
          rw [overflow_eq, show (1024 : Int) = 54 + 970 from rfl, zpow_add₀ (by norm_num)]
          exact mul_lt_mul_of_pos_right (by norm_num) (by positivity)
        have := (zpow_lt_zpow_iff_right₀ (by norm_num)).mp (reached.trans bound)
        simp only [greatestExponent]
        omega
    have small (full : unit num den = greatestExponent) : units num den ≤ 2 ^ 53 - 1 := by
      refine le_of_units (by positivity) (units_le below) (less.trans_eq ?_)
      rw [full, overflow_eq, greatestExponent, show (971 : Int) = 970 + 1 from rfl,
        zpow_add_one₀ (by norm_num)]
      generalize (2 : ℚ) ^ (970 : Int) = u
      push_cast
      ring
    by_cases carry : units num den = 2 ^ 53
    · have less : unit num den < greatestExponent := by
        refine lt_of_le_of_ne normal fun full => ?_
        have := small full
        omega
      rw [if_pos carry]
      exact ⟨_, if_neg (by omega)⟩
    · rw [if_neg carry]
      exact ⟨_, if_neg (not_lt.mpr normal)⟩

theorem size_nonneg (x : Binary64) : 0 ≤ x.size := by
  unfold size
  positivity

theorem size_of_isZero {x : Binary64} (zero : x.isZero = true) : x.size = 0 := by
  have none_left : x.significand = 0 := by simpa [isZero] using zero
  rw [size, none_left, Nat.cast_zero, zero_mul]

theorem size_eq_ratio (x : Binary64) : x.size = x.ratio.1 / x.ratio.2 := by
  have positive : (0 : ℚ) < x.ratio.2 := by exact_mod_cast x.ratio_pos
  rw [ratio_eq, mul_div_assoc, div_self positive.ne', mul_one]

theorem Finite.size_lt {x : Binary64} (finite : x.Finite) : x.size < overflow := by
  have less : (x.significand : ℚ) ≤ 2 ^ 53 - 1 := by
    have : x.significand + 1 ≤ 2 ^ 53 := finite.significand
    have : (x.significand : ℚ) + 1 ≤ 2 ^ 53 := by exact_mod_cast this
    linarith
  have unit_pos : (0 : ℚ) < 2 ^ (970 : Int) := by positivity
  have greatest : (2 : ℚ) ^ greatestExponent = 2 * 2 ^ (970 : Int) := by
    rw [greatestExponent, show (971 : Int) = 1 + 970 from rfl, zpow_add₀ (by norm_num), zpow_one]
  have power : (2 : ℚ) ^ x.exponent ≤ 2 * 2 ^ (970 : Int) :=
    greatest ▸ zpow_le_zpow_right₀ (by norm_num) finite.exponent
  have size_le : x.size ≤ (2 ^ 53 - 1) * (2 * 2 ^ (970 : Int)) :=
    mul_le_mul less power (by positivity) (by norm_num)
  rw [← mul_assoc] at size_le
  rw [overflow_eq]
  exact size_le.trans_lt (mul_lt_mul_of_pos_right (by norm_num) unit_pos)

theorem mul_isSome {x y : Binary64} (less : x.size * y.size < overflow) :
    ∃ z, x.mul y = some z := by
  have parts : ((x.ratio.1 * y.ratio.1 : Nat) : ℚ) / (x.ratio.2 * y.ratio.2 : Nat) =
      x.size * y.size := by
    rw [Nat.cast_mul, Nat.cast_mul, mul_div_mul_comm, ← size_eq_ratio, ← size_eq_ratio]
  exact round_isSome _ (Nat.mul_pos x.ratio_pos y.ratio_pos) (parts ▸ less)

theorem mul_finite {x y z : Binary64} (product : x.mul y = some z) : z.Finite :=
  round_finite (Nat.mul_pos x.ratio_pos y.ratio_pos) product

/-- Dividing by one or more stays in range. -/
theorem div_isSome {x y : Binary64} (finite : x.Finite) (large : y.ratio.2 ≤ y.ratio.1) :
    ∃ z, x.div y = some z := by
  have divisor : 0 < y.ratio.1 := Nat.lt_of_lt_of_le y.ratio_pos large
  have down : ((y.ratio.2 : Nat) : ℚ) / y.ratio.1 ≤ 1 := by
    rw [div_le_one (by exact_mod_cast divisor)]
    exact_mod_cast large
  have parts : ((x.ratio.1 * y.ratio.2 : Nat) : ℚ) / (x.ratio.2 * y.ratio.1 : Nat) ≤ x.size := by
    rw [Nat.cast_mul, Nat.cast_mul, mul_div_mul_comm, ← size_eq_ratio]
    exact mul_le_of_le_one_right x.size_nonneg down
  exact round_isSome _ (Nat.mul_pos x.ratio_pos divisor) (parts.trans_lt finite.size_lt)

theorem div_finite {x y z : Binary64} (large : y.ratio.2 ≤ y.ratio.1)
    (quotient : x.div y = some z) : z.Finite :=
  round_finite (Nat.mul_pos x.ratio_pos (Nat.lt_of_lt_of_le y.ratio_pos large)) quotient

end RecordLedger.Decimal.Binary64
