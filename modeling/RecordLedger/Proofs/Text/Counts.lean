import RecordLedger.Proofs.Text.Letters
import RecordLedger.Proofs.Text.Numerals

/-! Decimal texts of whole numbers: what is written is read back, and what is read has no other
characters than digits and a sign. -/
namespace RecordLedger.Text.Numeral

theorem digitChar_plain {d : Nat} (small : d < 10) :
    isBlank (digitChar d) = false ∧ digitChar d ≠ '-' ∧ digitChar d ≠ '+' := by
  have all : ∀ d ∈ List.range 10, isBlank (digitChar d) = false ∧ digitChar d ≠ '-' ∧
      digitChar d ≠ '+' := by decide
  exact all d (List.mem_range.mpr small)

theorem ofNat_digits (n : Nat) : ∀ c ∈ ofNat n, ∃ d, d < 10 ∧ c = digitChar d := by
  intro c member
  obtain ⟨d, digit, rfl⟩ := List.mem_map.mp member
  exact ⟨d, digits_small n d digit, rfl⟩

theorem ofNat_ne_nil (n : Nat) : ofNat n ≠ [] := by
  rw [ofNat, Ne, List.map_eq_nil_iff]
  exact (digits_leading n).ne_nil

theorem solid_ofNat (n : Nat) : Solid (ofNat n) := by
  intro c member
  obtain ⟨d, small, rfl⟩ := ofNat_digits n c member
  exact (digitChar_plain small).1

theorem solid_ofInt (n : Int) : Solid (ofInt n) := by
  cases n with
  | ofNat n => exact solid_ofNat n
  | negSucc n => exact List.forall_mem_cons.mpr ⟨rfl, solid_ofNat (n + 1)⟩

theorem solid_padded (width n : Nat) : Solid (padded width n) := by
  intro c member
  rcases List.mem_append.mp member with zero | digit
  · obtain rfl := List.eq_of_mem_replicate zero
    rfl
  · exact solid_ofNat n c digit

theorem nat?_ofNat (n : Nat) : nat? (ofNat n) = some n := by
  have taken : takeDigits (ofNat n) = (digits n, []) := by
    have whole : takeDigits (ofNat n ++ []) = (digits n, []) := takeDigits_ofNat (by rintro c ⟨⟩)
    rwa [List.append_nil] at whole
  obtain ⟨d, ds, shape⟩ := List.exists_cons_of_ne_nil (digits_leading n).ne_nil
  have value := value_digits n
  rw [shape] at taken value
  rw [nat?, taken]
  exact congrArg some value

theorem int?_unsigned {c : Char} (minus : c ≠ '-') (plus : c ≠ '+') (cs : List Char) :
    int? (c :: cs) = (nat? (c :: cs)).map Int.ofNat := by
  rw [int?]
  · rintro _ same
    exact minus (List.cons.inj same).1
  · rintro _ same
    exact plus (List.cons.inj same).1

theorem int?_ofInt (n : Int) : int? (ofInt n) = some n := by
  cases n with
  | ofNat n =>
    obtain ⟨c, cs, shape⟩ := List.exists_cons_of_ne_nil (ofNat_ne_nil n)
    obtain ⟨d, small, rfl⟩ := ofNat_digits n c (shape ▸ List.mem_cons_self)
    obtain ⟨-, minus, plus⟩ := digitChar_plain small
    rw [ofInt, shape, int?_unsigned minus plus, ← shape, nat?_ofNat]
    rfl
  | negSucc n =>
    rw [ofInt, int?, nat?_ofNat]
    rfl

theorem takeDigits_all {cs : List Char} {ds : List Nat} (taken : takeDigits cs = (ds, [])) :
    ∀ c ∈ cs, isDigit c = true := by
  induction cs generalizing ds with
  | nil => exact List.forall_mem_nil _
  | cons c cs ih =>
    rw [takeDigits] at taken
    split at taken
    · next d digit =>
      have first : isDigit c = true := by
        refine Decidable.byContradiction fun other => ?_
        rw [digit?, if_neg other] at digit
        cases digit
      cases rest : takeDigits cs with
      | mk ds left =>
        rw [rest] at taken
        cases taken
        exact List.forall_mem_cons.mpr ⟨first, ih rest⟩
    · cases taken

theorem nat?_digits {cs : List Char} {n : Nat} (read : nat? cs = some n) :
    ∀ c ∈ cs, isDigit c = true := by
  unfold nat? at read
  split at read
  · cases read
  · next taken => exact takeDigits_all taken
  · cases read

theorem int?_chars {cs : List Char} {n : Int} (read : int? cs = some n) :
    ∀ c ∈ cs, c = '-' ∨ c = '+' ∨ isDigit c = true := by
  unfold int? at read
  split at read
  · obtain ⟨_, signed, -⟩ := Option.map_eq_some_iff.mp read
    obtain ⟨m, magnitude, -⟩ := Option.bind_eq_some_iff.mp signed
    exact List.forall_mem_cons.mpr
      ⟨.inl rfl, fun c member => .inr (.inr (nat?_digits magnitude c member))⟩
  · obtain ⟨m, magnitude, -⟩ := Option.map_eq_some_iff.mp read
    exact List.forall_mem_cons.mpr
      ⟨.inr (.inl rfl), fun c member => .inr (.inr (nat?_digits magnitude c member))⟩
  · obtain ⟨m, magnitude, -⟩ := Option.map_eq_some_iff.mp read
    exact fun c member => .inr (.inr (nat?_digits magnitude c member))

end RecordLedger.Text.Numeral
