import Mathlib.Tactic.SplitIfs
import RecordLedger.Proofs.Text.Letters
import RecordLedger.Proofs.Text.Octets

/-! Hexadecimal text. A reader takes exactly the texts that have two digits of either case for each
octet, and the order of the lower-case texts is the order of the octets. -/
namespace RecordLedger.Text.Hex

def lowerDigits : List Char := "0123456789abcdef".toList

def Names (c : Char) (n : Nat) : Prop := lowerDigits[n]? = some c.toLower

inductive Spells : List Char → List UInt8 → Prop
  | nil : Spells [] []
  | octet {a b : Char} {cs : List Char} {o : UInt8} {octets : List UInt8}
      (upper : Names a (o.toNat / 16)) (lower : Names b (o.toNat % 16)) (rest : Spells cs octets) :
      Spells (a :: b :: cs) (o :: octets)

theorem lowerDigits_getElem? {n : Nat} (small : n < 16) :
    lowerDigits[n]? = some (digitChar n) := by
  have all : ∀ n ∈ List.range 16, lowerDigits[n]? = some (digitChar n) := by decide
  exact all n (List.mem_range.mpr small)

theorem mem_lowerDigits {c : Char} (lower : c ∈ lowerDigits) : ∃ n, n < 16 ∧ c = digitChar n := by
  obtain ⟨n, digit⟩ := List.mem_iff_getElem?.mp lower
  have small : n < 16 := (List.getElem?_eq_some_iff.mp digit).1
  exact ⟨n, small, Option.some.inj (digit.symm.trans (lowerDigits_getElem? small))⟩

theorem Names.small {c : Char} {n : Nat} (names : Names c n) : n < 16 :=
  (List.getElem?_eq_some_iff.mp names).1

theorem Names.toLower {c : Char} {n : Nat} (names : Names c n) : c.toLower = digitChar n :=
  Option.some.inj (names.symm.trans (lowerDigits_getElem? names.small))

theorem Names.ascii {c : Char} {n : Nat} (names : Names c n) : c.toNat < 128 := by
  have all : ∀ n ∈ List.range 16, (digitChar n).toNat < 128 := by decide
  have lower := all n (List.mem_range.mpr names.small)
  rw [← names.toLower] at lower
  rcases toLower_cases c with same | ⟨upper, -⟩
  · rwa [same] at lower
  · omega

theorem digit?_small {c : Char} {n : Nat} (digit : digit? c = some n) :
    n < 16 ∧ c.toNat < 128 := by
  have within {low high : Char} (between : (low ≤ c && c ≤ high) = true) :
      low.toNat ≤ c.toNat ∧ c.toNat ≤ high.toNat := by
    simp only [Bool.and_eq_true, decide_eq_true_eq] at between
    exact ⟨UInt32.le_iff_toNat_le.mp between.1, UInt32.le_iff_toNat_le.mp between.2⟩
  unfold digit? at digit
  split_ifs at digit with decimal lower upper
  · obtain ⟨first, last⟩ := within decimal
    cases digit
    simp only [Char.reduceToNat] at first last
    omega
  · obtain ⟨first, last⟩ := within lower
    cases digit
    simp only [Char.reduceToNat] at first last
    omega
  · obtain ⟨first, last⟩ := within upper
    cases digit
    simp only [Char.reduceToNat] at first last
    omega

theorem digit?_eq_some_iff {c : Char} {n : Nat} : digit? c = some n ↔ Names c n := by
  have table : ∀ k ∈ List.range 128, ∀ n ∈ List.range 16,
      digit? (Char.ofNat k) = some n ↔ lowerDigits[n]? = some (Char.ofNat k).toLower := by
    decide +kernel
  have here (small : n < 16) (ascii : c.toNat < 128) : digit? c = some n ↔ Names c n := by
    have entry := table c.toNat (List.mem_range.mpr ascii) n (List.mem_range.mpr small)
    rwa [Char.ofNat_toNat] at entry
  constructor
  · intro digit
    obtain ⟨small, ascii⟩ := digit?_small digit
    exact (here small ascii).mp digit
  · intro names
    exact (here names.small names.ascii).mpr names

theorem Names.eq_digitChar {c : Char} {n : Nat} (names : Names c n) (lower : c ∈ lowerDigits) :
    c = digitChar n := by
  have kept : ∀ n ∈ List.range 16, (digitChar n).toLower = digitChar n := by decide
  obtain ⟨m, small, rfl⟩ := mem_lowerDigits lower
  rw [← names.toLower, kept m (List.mem_range.mpr small)]

theorem Names.plain {c : Char} {n : Nat} (names : Names c n) :
    isBlank c = false ∧ c ≠ '\x7b' ∧ c ≠ '-' ∧ c.toLower ≠ 'u' := by
  have all : ∀ n ∈ List.range 16, isBlank (digitChar n) = false ∧ digitChar n ≠ '\x7b' ∧
      digitChar n ≠ '-' ∧ digitChar n ≠ 'u' := by decide
  have digit := all n (List.mem_range.mpr names.small)
  rw [← names.toLower] at digit
  obtain ⟨solid, brace, hyphen, letter⟩ := digit
  refine ⟨isBlank_toLower c ▸ solid, ?_, ?_, letter⟩
  · rintro rfl
    exact brace rfl
  · rintro rfl
    exact hyphen rfl

theorem decode?_eq_some_iff {cs : List Char} {octets : List UInt8} :
    decode? cs = some octets ↔ Spells cs octets := by
  constructor
  · intro decoded
    fun_induction decode? cs generalizing octets with
    | case1 =>
      cases decoded
      exact .nil
    | case2 => cases decoded
    | case3 a b cs ih =>
      simp only [Option.bind_eq_bind, Option.bind_eq_some_iff] at decoded
      obtain ⟨upper, first, lower, second, rest, others, same⟩ := decoded
      cases same
      have first := digit?_eq_some_iff.mp first
      have second := digit?_eq_some_iff.mp second
      have whole : (UInt8.ofNat (16 * upper + lower)).toNat = 16 * upper + lower := by
        have := first.small
        have := second.small
        rw [UInt8.toNat_ofNat', Nat.mod_eq_of_lt (by omega)]
      have := second.small
      refine .octet ?_ ?_ (ih others)
      · rwa [whole, show (16 * upper + lower) / 16 = upper by omega]
      · rwa [whole, show (16 * upper + lower) % 16 = lower by omega]
  · intro spells
    induction spells with
    | nil => rfl
    | @octet a b cs o octets upper lower _ ih =>
      have back : UInt8.ofNat (16 * (o.toNat / 16) + o.toNat % 16) = o := by
        rw [Nat.div_add_mod, UInt8.ofNat_toNat]
      simp only [decode?, digit?_eq_some_iff.mpr upper, digit?_eq_some_iff.mpr lower, ih,
        Option.bind_eq_bind, Option.bind_some, back]
      rfl

theorem spells_encode (octets : List UInt8) : Spells (encode octets) octets :=
  decode?_eq_some_iff.mp (decode?_encode octets)

theorem Spells.named {cs : List Char} {octets : List UInt8} (spells : Spells cs octets) :
    ∀ c ∈ cs, ∃ n, Names c n := by
  induction spells with
  | nil => exact List.forall_mem_nil _
  | octet upper lower _ ih =>
    exact List.forall_mem_cons.mpr ⟨⟨_, upper⟩, List.forall_mem_cons.mpr ⟨⟨_, lower⟩, ih⟩⟩

theorem Spells.solid {cs : List Char} {octets : List UInt8} (spells : Spells cs octets) :
    Solid cs := by
  intro c member
  obtain ⟨_, names⟩ := spells.named c member
  exact names.plain.1

theorem Spells.length {cs : List Char} {octets : List UInt8} (spells : Spells cs octets) :
    cs.length = 2 * octets.length := by
  induction spells with
  | nil => rfl
  | octet _ _ _ ih =>
    simp only [List.length_cons, ih]
    omega

theorem encode_lower (octets : List UInt8) : ∀ c ∈ encode octets, c ∈ lowerDigits := by
  intro c member
  obtain ⟨n, small, rfl⟩ := encode_digits octets c member
  exact List.mem_of_getElem? (lowerDigits_getElem? small)

/-- In lower case octets have one hexadecimal text. -/
theorem Spells.eq_encode {cs : List Char} {octets : List UInt8} (spells : Spells cs octets)
    (lower : ∀ c ∈ cs, c ∈ lowerDigits) : cs = encode octets := by
  induction spells with
  | nil => rfl
  | octet upper second _ ih =>
    obtain ⟨first, rest⟩ := List.forall_mem_cons.mp lower
    obtain ⟨next, rest⟩ := List.forall_mem_cons.mp rest
    rw [encode, ← upper.eq_digitChar first, ← second.eq_digitChar next, ← ih rest]

theorem digitChar_lt_iff {m n : Nat} (left : m < 16) (right : n < 16) :
    digitChar m < digitChar n ↔ m < n := by
  have all : ∀ m ∈ List.range 16, ∀ n ∈ List.range 16, digitChar m < digitChar n ↔ m < n := by
    decide
  exact all m (List.mem_range.mpr left) n (List.mem_range.mpr right)

theorem digitChar_inj {m n : Nat} (left : m < 16) (right : n < 16) :
    digitChar m = digitChar n ↔ m = n := by
  have all : ∀ m ∈ List.range 16, ∀ n ∈ List.range 16, digitChar m = digitChar n ↔ m = n := by
    decide
  exact all m (List.mem_range.mpr left) n (List.mem_range.mpr right)

theorem encode_lt_iff (xs ys : List UInt8) : encode xs < encode ys ↔ xs < ys := by
  induction xs generalizing ys with
  | nil => cases ys <;> simp [encode]
  | cons x xs ih =>
    cases ys with
    | nil => simp [encode]
    | cons y ys =>
      have := x.toNat_lt
      have := y.toNat_lt
      simp only [encode, List.cons_lt_cons_iff, ih,
        digitChar_lt_iff (m := x.toNat / 16) (n := y.toNat / 16) (by omega) (by omega),
        digitChar_lt_iff (m := x.toNat % 16) (n := y.toNat % 16) (by omega) (by omega),
        digitChar_inj (m := x.toNat / 16) (n := y.toNat / 16) (by omega) (by omega),
        digitChar_inj (m := x.toNat % 16) (n := y.toNat % 16) (by omega) (by omega),
        UInt8.lt_iff_toNat_lt, ← UInt8.toNat_inj]
      rw [and_or_left, ← or_assoc, ← and_assoc]
      refine or_congr ?_ (and_congr_left fun _ => ?_) <;> omega

theorem ascii_encode (octets : List UInt8) : Ascii (encode octets) := by
  intro c member
  obtain ⟨_, names⟩ := (spells_encode octets).named c member
  exact names.ascii

end RecordLedger.Text.Hex
