import RecordLedger.Proofs.Decimal.Scaled

/-! The digits of a number, read again. Both the digits and their power of ten are rounded on the
way, so the product may exceed what the digits stand for; it stays below the bound all the same. For
most powers there is a margin, or the digits are an exact number; the one power with neither is
looked at digit by digit. -/
namespace RecordLedger.Decimal.Binary64

variable {x y : Binary64} {n k : Nat}

def lowest : Nat := (2 ^ 54 - 3) * 2 ^ 970

theorem lowest_eq : (lowest : ℚ) = (2 ^ 54 - 3) * 2 ^ (970 : Int) := by
  rw [lowest, Nat.cast_mul, Nat.cast_pow, Nat.cast_sub (by norm_num), Nat.cast_pow,
    Nat.cast_ofNat, Nat.cast_ofNat, show (970 : Int) = (970 : Nat) from rfl, zpow_natCast]

theorem upper_le_of {m : Nat} {e : Int} (significand : x.significand ≤ m)
    (exponent : x.exponent ≤ e) : x.upper ≤ (m + 1 / 2) * 2 ^ e := by
  have digits_le : (x.significand : ℚ) ≤ m := by exact_mod_cast significand
  have power_le : (2 : ℚ) ^ x.exponent ≤ 2 ^ e := zpow_le_zpow_right₀ (by norm_num) exponent
  unfold upper
  gcongr

/-- The interval of a number ends where the greatest one's does, or where that one starts. -/
theorem Finite.upper_le (finite : x.Finite) :
    x.upper ≤ overflow ∧ (x ≠ greatest x.negative → x.upper ≤ lowest) := by
  have significand : x.significand ≤ 2 ^ 53 - 1 := Nat.le_pred_of_lt finite.significand
  have exponent : x.exponent ≤ 970 + 1 := finite.exponent
  rw [overflow_eq, lowest_eq]
  constructor
  · have reach := upper_le_of significand exponent
    rw [zpow_add_one₀ (by norm_num)] at reach
    generalize (2 : ℚ) ^ (970 : Int) = u at *
    norm_num at reach ⊢
    linarith
  · intro other
    have unit_pos : (0 : ℚ) < 2 ^ (970 : Int) := by positivity
    rcases Nat.lt_or_eq_of_le significand with smaller | full
    · have reach := upper_le_of (Nat.le_pred_of_lt smaller) exponent
      rw [zpow_add_one₀ (by norm_num)] at reach
      generalize (2 : ℚ) ^ (970 : Int) = u at *
      norm_num at reach ⊢
      linarith
    · have shifted : x.exponent ≤ 970 := by
        refine Int.le_of_lt_add_one (lt_of_le_of_ne exponent fun top => other ?_)
        cases x
        simp_all [greatest, greatestExponent]
      have reach := upper_le_of significand shifted
      generalize (2 : ℚ) ^ (970 : Int) = u at *
      norm_num at reach ⊢
      linarith

theorem mul_of_le (bound : x.size ≤ n) (less : n * y.ratio.1 < overflow * y.ratio.2) :
    ∃ z, x.mul y = some z := by
  have below : (0 : ℚ) < y.ratio.2 := Nat.cast_pos.mpr y.ratio_pos
  have less : (n : ℚ) * y.ratio.1 < overflow * y.ratio.2 := by
    rw [← Nat.cast_mul, ← Nat.cast_mul]
    exact Nat.cast_lt.mpr less
  refine mul_isSome ?_
  rw [y.size_eq_ratio, mul_div_assoc', div_lt_iff₀ below]
  exact (mul_le_mul_of_nonneg_right bound (Nat.cast_nonneg _)).trans_lt less

/-- Well below the bound there is room for both roundings. -/
theorem scale_ofNat (steps : Nat) (bounded : k ≤ 308) (least : n * 10 ^ k ≤ 10 ^ 308)
    (rounded : ofNat n = some x) : ∃ y, scale (steps + 1) x k = some y := by
  refine scale_within steps bounded ?_
  have margin : 10 ^ 308 * (2 ^ 53 + 1) ^ 2 < overflow * 2 ^ 106 := by decide +kernel
  generalize 10 ^ 308 = p at least margin
  generalize overflow = bound at margin ⊢
  have least : (n : ℚ) * 10 ^ k ≤ p := by exact_mod_cast least
  have margin : (p : ℚ) * (2 ^ 53 + 1) ^ 2 < bound * 2 ^ 106 := by exact_mod_cast margin
  have slack_pos : (0 : ℚ) < slack := by norm_num [slack]
  have squared : slack ^ 2 = (2 ^ 53 + 1) ^ 2 / 2 ^ 106 := by norm_num [slack]
  calc x.size * (powerOfTen k).size ≤ (n * slack) * (10 ^ k * slack) :=
        mul_le_mul (ofNat_size rounded) (powerOfTen_size k) (size_nonneg _) (by positivity)
    _ = n * 10 ^ k * slack ^ 2 := by ring
    _ ≤ p * slack ^ 2 := by gcongr
    _ < bound := by rwa [squared, mul_div_assoc', div_lt_iff₀ (by norm_num)]

/-- So many digits leave room for this power. -/
theorem scale_few {a b : Nat} (steps : Nat) (sum : a + b = 308) (few : n ≤ 10 ^ a)
    (bounded : k ≤ b) (rounded : ofNat n = some x) : ∃ y, scale (steps + 1) x k = some y := by
  refine scale_ofNat steps (by omega) ?_ rounded
  rw [← sum, pow_add]
  exact Nat.mul_le_mul few (Nat.pow_le_pow_right (by decide) bounded)

/-- So many digits round to an even number, downwards if they are odd. -/
theorem ofNat_even (bounded : n ≤ 17976931348623157) (rounded : ofNat n = some x) :
    x.size ≤ (17976931348623156 : Nat) := by
  rcases Nat.lt_or_ge n (2 ^ 53) with small | large
  · rw [round_size_small small rounded]
    exact_mod_cast (by omega : n ≤ 17976931348623156)
  · rcases Nat.lt_or_eq_of_le bounded with less | rfl
    · have positive : 0 < n := by omega
      obtain ⟨low, high⟩ := leading_bounds positive Nat.one_pos
      rw [Nat.cast_one, div_one] at low high
      have reached : (2 : ℚ) ^ (53 : Int) ≤ n := by exact_mod_cast large
      have missed : (n : ℚ) < 2 ^ (54 : Int) := by exact_mod_cast (by omega : n < 2 ^ 54)
      have leading_low := (zpow_lt_zpow_iff_right₀ (by norm_num)).mp (reached.trans_lt high)
      have leading_high := (zpow_lt_zpow_iff_right₀ (by norm_num)).mp (low.trans_lt missed)
      have doubled : unit n 1 = 1 := by
        simp only [unit, leastExponent]
        omega
      have near := @units_le n 1 Nat.one_pos
      rw [(round_some positive Nat.one_pos rounded).2, doubled, zpow_one]
      rw [doubled, zpow_one, Nat.cast_one, div_one, div_self (by norm_num)] at near
      have near : units n 1 * 2 ≤ n + 1 := by exact_mod_cast near
      exact_mod_cast (by omega : units n 1 * 2 ≤ 17976931348623156)
    · have closed : ofNat 17976931348623157 = some ⟨false, 8988465674311578, 1⟩ := by
        decide +kernel
      cases closed.symm.trans rounded
      norm_num [size]

/-- At this power the digits have to be those of a number. -/
theorem reread_middle (steps : Nat) (bounded : n ≤ 17976931348623157)
    (rounded : ofNat n = some x) : ∃ y, scale (steps + 1) x ((292 : Nat) : Int) = some y := by
  rw [scale, if_pos (by omega), if_pos (by omega), Int.natAbs_natCast]
  have fits : 17976931348623156 * (powerOfTen 292).ratio.1 <
      overflow * (powerOfTen 292).ratio.2 := by decide +kernel
  exact mul_of_le (ofNat_even bounded rounded) fits

/-- From this power on the digits are exact numbers. -/
theorem reread_large (steps : Nat) (lower : 293 ≤ k) (upper : k ≤ 308)
    (less : n * 10 ^ k ≤ overflow) (rounded : ofNat n = some x) :
    ∃ y, scale (steps + 1) x k = some y := by
  have all : ∀ j ∈ List.range 16, overflow / 10 ^ (293 + j) < 2 ^ 53 ∧
      overflow / 10 ^ (293 + j) * (powerOfTen (293 + j)).ratio.1 <
        overflow * (powerOfTen (293 + j)).ratio.2 := by decide +kernel
  obtain ⟨exact_digits, fits⟩ := all (k - 293) (List.mem_range.mpr (by omega))
  rw [show 293 + (k - 293) = k by omega] at exact_digits fits
  have digits_le : n ≤ overflow / 10 ^ k := (Nat.le_div_iff_mul_le (by positivity)).mpr less
  rw [scale, if_pos (by omega), if_pos (by omega), Int.natAbs_natCast]
  refine mul_of_le (n := overflow / 10 ^ k) ?_ fits
  rw [round_size_small (Nat.lt_of_le_of_lt digits_le exact_digits) rounded]
  exact Nat.cast_le.mpr digits_le

/-- The digits of a number can be read again. -/
theorem reread_shortest (finite : x.Finite) (steps : Nat) :
    ∃ y z, ofNat x.shortest.digits = some y ∧ scale (steps + 1) y x.shortest.exponent = some z := by
  obtain ⟨reaches, few⟩ := x.shortest_bounds
  obtain ⟨below, low⟩ := finite.upper_le
  obtain ⟨y, rounded, digits_finite⟩ := ofNat_isSome (n := x.shortest.digits)
    (Nat.lt_of_le_of_lt few (by decide))
  refine ⟨y, (?_ : ∃ z, _).imp fun z scaled => ⟨rounded, scaled⟩⟩
  rcases lt_or_ge x.shortest.exponent 0 with negative | nonneg
  · exact scale_negative _ digits_finite negative
  obtain ⟨k, power⟩ := Int.eq_ofNat_of_zero_le nonneg
  rw [power] at reaches ⊢
  rw [zpow_natCast] at reaches
  have stands {bound : Nat} (upper_le : x.upper ≤ bound) : x.shortest.digits * 10 ^ k ≤ bound := by
    exact_mod_cast reaches.trans upper_le
  rcases Nat.lt_or_ge 308 k with beyond | bounded
  · have none_left : x.shortest.digits = 0 := by
      by_contra some_left
      have small : overflow < 10 ^ (308 + 1) := by decide +kernel
      generalize 308 = m at beyond small
      have large : 10 ^ (m + 1) ≤ x.shortest.digits * 10 ^ k :=
        (Nat.pow_le_pow_right (by decide) beyond).trans
          (Nat.le_mul_of_pos_left _ (Nat.pos_of_ne_zero some_left))
      exact absurd (large.trans (stands below)) (not_le.mpr small)
    rw [none_left] at rounded
    cases rounded
    exact ⟨_, scale_zero steps rfl (by omega)⟩
  · rcases Nat.lt_or_ge 291 k with above | within
    · rcases Nat.lt_or_ge 292 k with large | middle
      · exact reread_large steps large bounded (stands below) rounded
      · obtain rfl : k = 292 := by omega
        refine reread_middle steps ?_ rounded
        by_cases top : x = greatest x.negative
        · have closed : ∀ negative, (greatest negative).shortest.digits = 17976931348623157 := by
            decide +kernel
          rw [top, closed]
        · have gap : lowest < 17976931348623157 * 10 ^ 292 := by decide +kernel
          exact Nat.le_of_lt (Nat.lt_of_mul_lt_mul_right ((stands (low top)).trans_lt gap))
    · exact scale_few steps (by decide : 17 + 291 = 308) few within rounded

end Binary64

theorem le_foldl (ds : List Nat) (n : Nat) : n ≤ ds.foldl (fun n d => 10 * n + d) n := by
  induction ds generalizing n with
  | nil => exact Nat.le_refl n
  | cons d ds ih => exact Nat.le_trans (by omega) (ih (10 * n + d))

theorem appendDigits_lt {n : Nat} (ds : List Nat) (fits : n < 2 ^ 64) :
    (appendDigits n ds).1 < 2 ^ 64 := by
  induction ds generalizing n with
  | nil => exact fits
  | cons d ds ih =>
    rw [appendDigits]
    split
    · next next_fits => exact ih next_fits
    · exact fits

/-- All digits of a number of 64 bits are taken. -/
theorem appendDigits_all {n : Nat} {ds : List Nat}
    (fits : ds.foldl (fun n d => 10 * n + d) n < 2 ^ 64) :
    appendDigits n ds = (ds.foldl (fun n d => 10 * n + d) n, ds.length) := by
  induction ds generalizing n with
  | nil => rfl
  | cons d ds ih =>
    have next_fits : 10 * n + d < Nat.pow 2 64 := Nat.lt_of_le_of_lt (le_foldl ds _) fits
    rw [appendDigits, if_pos next_fits, ih fits]
    rfl

theorem ofDigits?_finite {negative : Bool} {whole fraction : List Nat} {e : Int} {x : Binary64}
    (read : ofDigits? negative whole fraction e = some x) : x.Finite := by
  simp only [ofDigits?, Option.bind_eq_bind, Option.bind_eq_some_iff, Option.pure_def,
    Option.some.injEq] at read
  obtain ⟨y, rounded, z, scaled, rfl⟩ := read
  have finite := Binary64.scale_finite (Binary64.round_finite Nat.one_pos rounded) scaled
  exact ⟨finite.significand, finite.exponent⟩

theorem ofDigits?_isSome {negative : Bool} {whole fraction : List Nat} {e : Int}
    (reads : ∀ n taken m places, appendDigits 0 whole = (n, taken) →
      appendDigits n fraction = (m, places) → ∃ y z, Binary64.ofNat m = some y ∧
        scale 5 y (e + (whole.length - taken : Nat) - places) = some z) :
    ∃ x, ofDigits? negative whole fraction e = some x := by
  obtain ⟨y, z, rounded, scaled⟩ := reads _ _ _ _ rfl rfl
  exact ⟨{ z with negative }, by simp [ofDigits?, rounded, scaled]⟩

/-- A number without an exponent and with few digits before the point is not too large. -/
theorem ofDigits?_short (negative : Bool) {whole : List Nat} (fraction : List Nat)
    (short : whole.length ≤ 288) : ∃ x, ofDigits? negative whole fraction 0 = some x := by
  refine ofDigits?_isSome fun n taken m places leading rest => ?_
  have n_fits : n < 2 ^ 64 := by
    simpa only [leading] using appendDigits_lt whole (by decide : 0 < 2 ^ 64)
  have m_fits : m < 2 ^ 64 := by
    simpa only [rest] using appendDigits_lt fraction n_fits
  obtain ⟨y, rounded, finite⟩ := Binary64.ofNat_isSome m_fits
  refine ⟨y, (?_ : ∃ z, _).imp fun z scaled => ⟨rounded, scaled⟩⟩
  rcases lt_or_ge ((0 : Int) + (whole.length - taken : Nat) - places) 0 with down | up
  · exact Binary64.scale_negative _ finite down
  · obtain ⟨k, power⟩ := Int.eq_ofNat_of_zero_le up
    rw [power]
    have few : m ≤ 10 ^ 20 := Nat.le_of_lt (m_fits.trans (by decide))
    exact Binary64.scale_few 4 (by decide : 20 + 288 = 308) few (by omega) rounded

/-- The digits of a number, the first before the point, are read again. -/
theorem ofDigits?_shortest {x : Binary64} (finite : x.Finite) (negative : Bool) :
    ∃ y, ofDigits? negative ((Text.Numeral.digits x.shortest.digits).take 1)
      ((Text.Numeral.digits x.shortest.digits).drop 1) x.shortest.magnitude = some y := by
  refine ofDigits?_isSome fun n taken m places leading rest => ?_
  have value := Text.Numeral.value_digits x.shortest.digits
  have some_digit := (Text.Numeral.digits_leading x.shortest.digits).ne_nil
  have few : x.shortest.digits < 2 ^ 64 := Nat.lt_of_le_of_lt x.shortest_bounds.2 (by decide)
  have exponent : x.shortest.magnitude = x.shortest.exponent +
      ((Text.Numeral.digits x.shortest.digits).length : Int) - 1 := rfl
  rw [exponent]
  generalize Text.Numeral.digits x.shortest.digits = ds at *
  obtain ⟨d, ds, rfl⟩ := List.exists_cons_of_ne_nil some_digit
  have whole : ds.foldl (fun n d => 10 * n + d) (10 * 0 + d) = x.shortest.digits := value
  rw [List.take_one, List.head?_cons, Option.toList_some] at leading
  rw [appendDigits_all (Nat.lt_of_le_of_lt (le_foldl ds _) (whole ▸ few))] at leading
  cases leading
  have all := @appendDigits_all (10 * 0 + d) ds (whole ▸ few)
  rw [List.drop_one, List.tail_cons, List.foldl_cons, List.foldl_nil, all, whole] at rest
  cases rest
  obtain ⟨y, z, rounded, scaled⟩ := Binary64.reread_shortest finite 4
  refine ⟨y, z, rounded, ?_⟩
  convert scaled using 2
  simp only [List.take_succ_cons, List.take_zero, List.length_cons, List.length_nil]
  omega

end RecordLedger.Decimal
