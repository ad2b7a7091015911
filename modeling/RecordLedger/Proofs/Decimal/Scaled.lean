import RecordLedger.Decimal.Scaled
import RecordLedger.Proofs.Decimal.Shortest

/-! Decimals read back: the digits that a number is written with are scaled to a number again, and
never past the greatest one. -/
namespace RecordLedger.Decimal

open Binary64 (overflow)

namespace Binary64

variable {x y : Binary64} {n k : Nat} {e : Int}

def slack : ℚ := 1 + 1 / 2 ^ 53

theorem powerOfTen_large (bounded : k ≤ 308) : (powerOfTen k).ratio.2 ≤ (powerOfTen k).ratio.1 := by
  have all : ∀ k ∈ List.range 309, (powerOfTen k).ratio.2 ≤ (powerOfTen k).ratio.1 := by
    decide +kernel
  exact all k (List.mem_range.mpr (by omega))

theorem powerOfTen_size (k : Nat) : (powerOfTen k).size ≤ 10 ^ k * slack := by
  unfold powerOfTen
  cases rounded : round false (Nat.pow 10 k) 1 with
  | none =>
    rw [Option.getD_none, size_of_isZero rfl]
    unfold slack
    positivity
  | some y =>
    have whole : ((Nat.pow 10 k : Nat) : ℚ) / (1 : Nat) = 10 ^ k := by
      rw [Nat.pow_eq, Nat.cast_pow, Nat.cast_ofNat, Nat.cast_one, div_one]
    have large : (1 : ℚ) ≤ (Nat.pow 10 k : Nat) / (1 : Nat) :=
      whole ▸ one_le_pow₀ (by norm_num)
    exact (round_size_le Nat.one_pos large rounded).trans_eq (by rw [whole, slack])

theorem ofNat_isSome (bounded : n < 2 ^ 64) : ∃ x, ofNat n = some x ∧ x.Finite := by
  have less : (n : ℚ) / (1 : Nat) < overflow := by
    rw [Nat.cast_one, div_one]
    exact_mod_cast Nat.lt_of_lt_of_le bounded (by decide +kernel : 2 ^ 64 ≤ overflow)
  obtain ⟨x, rounded⟩ := round_isSome false Nat.one_pos less
  exact ⟨x, rounded, round_finite Nat.one_pos rounded⟩

theorem ofNat_size (rounded : ofNat n = some x) : x.size ≤ n * slack := by
  rcases Nat.eq_zero_or_pos n with rfl | positive
  · cases rounded
    rw [size_of_isZero rfl, Nat.cast_zero, zero_mul]
  · have large : (1 : ℚ) ≤ n / (1 : Nat) := by
      rw [Nat.cast_one, div_one]
      exact_mod_cast positive
    exact (round_size_le Nat.one_pos large rounded).trans_eq (by rw [Nat.cast_one, div_one, slack])

theorem scale_negative (steps : Nat) (finite : x.Finite) (negative : e < 0) :
    ∃ y, scale steps x e = some y := by
  induction steps generalizing x e with
  | zero => exact ⟨x, rfl⟩
  | succ steps ih =>
    rw [scale]
    split
    · next bounded =>
      rw [if_neg (by omega)]
      exact div_isSome finite (powerOfTen_large bounded)
    · split
      · exact ⟨x, rfl⟩
      · rw [if_neg (by omega)]
        obtain ⟨y, quotient⟩ := div_isSome finite (powerOfTen_large (Nat.le_refl 308))
        rw [quotient, Option.bind_some]
        exact ih (div_finite (powerOfTen_large (Nat.le_refl 308)) quotient) (by omega)

theorem scale_within (steps : Nat) (bounded : k ≤ 308)
    (less : x.size * (powerOfTen k).size < overflow) : ∃ y, scale (steps + 1) x k = some y := by
  rw [scale, if_pos (by omega), if_pos (by omega), Int.natAbs_natCast]
  exact mul_isSome less

theorem scale_zero (steps : Nat) (zero : x.isZero = true) (large : 308 < e.natAbs) :
    scale (steps + 1) x e = some x := by
  rw [scale, if_neg (by omega), if_pos zero]

theorem scale_finite {steps : Nat} (finite : x.Finite) (scaled : scale steps x e = some y) :
    y.Finite := by
  induction steps generalizing x e with
  | zero =>
    cases scaled
    exact finite
  | succ steps ih =>
    rw [scale] at scaled
    split at scaled
    · next bounded =>
      split at scaled
      · exact mul_finite scaled
      · exact div_finite (powerOfTen_large bounded) scaled
    · split at scaled
      · cases scaled
        exact finite
      · split at scaled
        · cases scaled
        · obtain ⟨z, quotient, scaled⟩ := Option.bind_eq_some_iff.mp scaled
          exact ih (div_finite (powerOfTen_large (Nat.le_refl 308)) quotient) scaled

end Binary64
end RecordLedger.Decimal
