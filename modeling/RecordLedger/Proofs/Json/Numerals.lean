import RecordLedger.Json.Number
import RecordLedger.Proofs.Decimal.Reread
import RecordLedger.Word

/-! Numerals of JSON text, read back from their spelling, and the numbers they stand for. The
numeral of an integer stands for it; that of a floating-point number stands for some number. -/
namespace RecordLedger.Json

open Text.Numeral (Leading Stops digitChar digits takeDigits_append)

namespace Numeral

/-- A numeral that the grammar of JSON has: digits, with no zero in front of others. -/
structure Written (n : Numeral) : Prop where
  leading : Leading n.whole
  whole : ∀ d ∈ n.whole, d < 10
  fraction : ∀ d ∈ n.fraction, d < 10

def Ends (cs : List Char) : Prop :=
  ∀ c ∈ cs.head?, Text.Numeral.digit? c = none ∧ c ≠ '.' ∧ c ≠ 'e' ∧ c ≠ 'E'

theorem Ends.stops {cs : List Char} (ends : Ends cs) : Stops cs := fun c head => (ends c head).1

theorem readExponent_text (e : Option Int) {cs : List Char} (ends : Ends cs) :
    Token.readExponent (exponentText e ++ cs) = some (e, cs) := by
  cases e with
  | none =>
    cases cs with
    | nil => rfl
    | cons c cs =>
      obtain ⟨_, _, lower, upper⟩ := ends c rfl
      simp [exponentText, Token.readExponent, lower, upper]
  | some e =>
    have taken := Text.Numeral.takeDigits_ofNat (n := e.natAbs) ends.stops
    have some_digit := (Text.Numeral.digits_leading e.natAbs).ne_nil
    have read (sign : Int) : Token.readExponentDigits sign (Text.Numeral.ofNat e.natAbs ++ cs) =
        some (some (sign * e.natAbs), cs) := by
      rw [Token.readExponentDigits, taken]
      have value := Text.Numeral.value_digits e.natAbs
      cases shape : digits e.natAbs with
      | nil => exact absurd shape some_digit
      | cons d ds => rw [shape] at value; simp only [value]
    rw [exponentText]
    split
    · next negative =>
      simp only [List.cons_append, Token.readExponent, BEq.rfl, Bool.true_or, if_true, read]
      rw [show (-1 : Int) * e.natAbs = e by omega]
    · simp only [List.cons_append, Token.readExponent, BEq.rfl, Bool.true_or, if_true, read]
      rw [show (1 : Int) * e.natAbs = e by omega]

theorem exponentText_ends (e : Option Int) {cs : List Char} (ends : Ends cs) :
    ∀ c ∈ (exponentText e ++ cs).head?, Text.Numeral.digit? c = none ∧ c ≠ '.' := by
  cases e with
  | none => exact fun c head => ⟨(ends c head).1, (ends c head).2.1⟩
  | some e =>
    intro c head
    cases head
    decide

theorem readFraction_text {ds : List Nat} {cs : List Char} (small : ∀ d ∈ ds, d < 10)
    (stops : ∀ c ∈ cs.head?, Text.Numeral.digit? c = none ∧ c ≠ '.') :
    Token.readFraction ((if ds.isEmpty then [] else '.' :: ds.map digitChar) ++ cs) =
      some (ds, cs) := by
  cases ds with
  | nil =>
    rw [List.isEmpty_nil, if_pos rfl, List.nil_append]
    unfold Token.readFraction
    split
    · exact absurd rfl (stops '.' rfl).2
    · rfl
  | cons d ds =>
    have taken : Text.Numeral.takeDigits ((d :: ds).map digitChar ++ cs) = (d :: ds, cs) :=
      takeDigits_append small fun c head => (stops c head).1
    rw [List.map_cons, List.cons_append] at taken
    simp only [List.isEmpty_cons, Bool.false_eq_true, if_false, List.map_cons, List.cons_append,
      Token.readFraction, taken]

theorem fractionText_stops (ds : List Nat) {cs : List Char}
    (stops : ∀ c ∈ cs.head?, Text.Numeral.digit? c = none ∧ c ≠ '.') :
    Stops ((if ds.isEmpty then [] else '.' :: ds.map digitChar) ++ cs) := by
  cases ds with
  | nil => exact fun c head => (stops c head).1
  | cons d ds =>
    intro c head
    cases head
    decide

def magnitudeText (n : Numeral) : List Char :=
  n.whole.map digitChar ++ ((if n.fraction.isEmpty then [] else '.' :: n.fraction.map digitChar) ++
    exponentText n.exponent)

theorem text_eq (n : Numeral) :
    n.text = (if n.negative then ['-'] else []) ++ n.magnitudeText := by
  simp only [text, magnitudeText, List.append_assoc]

theorem readMagnitude_text {n : Numeral} (written : Written n) {cs : List Char} (ends : Ends cs) :
    Token.readMagnitude n.negative (n.magnitudeText ++ cs) = some (n, cs) := by
  have after := exponentText_ends n.exponent ends
  have fraction := readFraction_text written.fraction after
  have taken := takeDigits_append written.whole (fractionText_stops n.fraction after)
  rw [Token.readMagnitude, magnitudeText, List.append_assoc, List.append_assoc, taken]
  split
  · next empty => exact absurd (congrArg Prod.fst empty) written.leading.ne_nil
  · next shape =>
    rcases written.leading with zero | ⟨d, rest, lead, nonzero⟩
    · cases zero.symm.trans (congrArg Prod.fst shape)
    · cases lead.symm.trans (congrArg Prod.fst shape)
      exact absurd rfl nonzero
  · next shape =>
    cases shape
    simp only [fraction, readExponent_text n.exponent ends]

theorem next?_digit {d : Nat} (small : d < 10) (cs : List Char) :
    Token.next? (digitChar d :: cs) =
      (Token.readMagnitude false (digitChar d :: cs)).map fun (n, rest) => (.number n, rest) := by
  match d, small with
  | 0, _ | 1, _ | 2, _ | 3, _ | 4, _ | 5, _ | 6, _ | 7, _ | 8, _ | 9, _ => rfl

theorem next?_text {n : Numeral} (written : Written n) {cs : List Char} (ends : Ends cs) :
    Token.next? (n.text ++ cs) = some (.number n, cs) := by
  have read := readMagnitude_text written ends
  rw [text_eq]
  cases sign : n.negative with
  | true =>
    rw [sign] at read
    simp only [if_true, List.cons_append, List.nil_append, Token.next?, read, Option.map_some]
  | false =>
    obtain ⟨d, ds, shape⟩ := List.exists_cons_of_ne_nil written.leading.ne_nil
    have small : d < 10 := written.whole d (by rw [shape]; exact List.mem_cons_self)
    rw [sign, magnitudeText, shape, List.map_cons, List.cons_append, List.cons_append] at read
    rw [magnitudeText, shape, List.map_cons]
    simp only [Bool.false_eq_true, if_false, List.nil_append, List.cons_append]
    rw [next?_digit small, read]
    rfl

/-- A spelled numeral begins with a sign or a digit. -/
theorem text_head {n : Numeral} (written : Written n) :
    ∃ c rest, n.text = c :: rest ∧ Token.isSpace c = false := by
  rw [text_eq]
  cases n.negative with
  | true => exact ⟨'-', _, rfl, rfl⟩
  | false =>
    obtain ⟨d, ds, shape⟩ := List.exists_cons_of_ne_nil written.leading.ne_nil
    have small : d < 10 := written.whole d (by rw [shape]; exact List.mem_cons_self)
    have all : ∀ d ∈ List.range 10, Token.isSpace (digitChar d) = false := by decide
    rw [magnitudeText, shape]
    exact ⟨digitChar d, _, rfl, all d (List.mem_range.mpr small)⟩

def Fits (n : Int) : Prop := Word.minSigned ≤ n ∧ n ≤ Word.maxUnsigned

theorem ofInt_written (n : Int) : Written (ofInt n) :=
  ⟨Text.Numeral.digits_leading _, Text.Numeral.digits_small _,
    fun _ member => absurd member List.not_mem_nil⟩

theorem json?_ofInt {n : Int} (fits : Fits n) : (ofInt n).json? = some (.int n) := by
  obtain ⟨lower, upper⟩ := fits
  simp only [Word.minSigned, Word.maxUnsigned] at lower upper
  have read : (ofInt n).int? = some n := by
    simp only [int?, ofInt, List.isEmpty_nil, Option.isNone_none, Bool.and_self, if_true,
      Text.Numeral.value_digits]
    by_cases negative : n < 0
    · simp only [negative, decide_true, if_true]
      rw [if_pos (by simp; omega)]
      exact congrArg some (by omega)
    · simp only [negative, decide_false, Bool.false_eq_true, if_false]
      rw [if_pos (by simp; omega)]
      exact congrArg some (by omega)
  rw [json?, read]

open Decimal (GridPoint Binary64)

theorem positional_written (d : GridPoint) (zero : d.digits = 0 → d.exponent = 0)
    (negative : Bool) : Written ⟨negative, d.positional.1, d.positional.2, none⟩ := by
  have small := Text.Numeral.digits_small d.digits
  have leading := Text.Numeral.digits_leading d.digits
  have value := Text.Numeral.value_digits d.digits
  have zeros (n : Nat) : ∀ d ∈ List.replicate n 0, d < 10 := fun d member =>
    List.eq_of_mem_replicate member ▸ (by decide)
  unfold GridPoint.positional
  dsimp only
  generalize digits d.digits = ds at *
  split
  · refine ⟨?_, List.forall_mem_append.mpr ⟨small, zeros _⟩,
      List.forall_mem_singleton.mpr (by decide)⟩
    rcases leading with rfl | ⟨first, rest, rfl, nonzero⟩
    · rw [zero value.symm]
      exact .inl rfl
    · exact .inr ⟨first, _, rfl, nonzero⟩
  · next below =>
    split
    · next shorter =>
      refine ⟨?_, fun d member => small d (List.mem_of_mem_take member),
        fun d member => small d (List.mem_of_mem_drop member)⟩
      rcases leading with rfl | ⟨first, rest, rfl, nonzero⟩
      · rw [List.length_singleton] at shorter
        omega
      · obtain ⟨n, taken⟩ := Nat.exists_eq_add_of_lt shorter
        refine .inr ⟨first, rest.take n, ?_, nonzero⟩
        rw [show (first :: rest).length - (-d.exponent).toNat = n + 1 by omega, List.take_succ_cons]
    · exact ⟨.inl rfl, List.forall_mem_singleton.mpr (by decide),
        List.forall_mem_append.mpr ⟨zeros _, small⟩⟩

theorem positional_length (d : GridPoint) (bounded : d.magnitude ≤ 15) :
    d.positional.1.length ≤ 16 := by
  unfold GridPoint.magnitude at bounded
  unfold GridPoint.positional
  dsimp only
  split
  · rw [List.length_append, List.length_replicate]
    omega
  · split
    · rw [List.length_take]
      omega
    · exact Nat.le_of_ble_eq_true rfl

theorem ofFloat_written (x : Binary64) : Written (ofFloat x) := by
  have small := Text.Numeral.digits_small x.shortest.digits
  unfold ofFloat
  dsimp only
  split
  · exact ⟨.inl rfl, List.forall_mem_singleton.mpr (by decide),
      List.forall_mem_singleton.mpr (by decide)⟩
  split
  · exact positional_written x.shortest Binary64.shortest_zero x.negative
  · refine ⟨?_, fun d member => small d (List.mem_of_mem_take member),
      fun d member => small d (List.mem_of_mem_drop member)⟩
    rcases Text.Numeral.digits_leading x.shortest.digits with zero | ⟨d, rest, lead, nonzero⟩
    · exact .inl (by rw [zero]; rfl)
    · exact .inr ⟨d, [], by rw [lead]; rfl, nonzero⟩

theorem json?_isSome {n : Numeral}
    (read : ∃ x, Decimal.ofDigits? n.negative n.whole n.fraction (n.exponent.getD 0) = some x) :
    ∃ v, n.json? = some v := by
  obtain ⟨x, read⟩ := read
  unfold json?
  split
  · exact ⟨_, rfl⟩
  · exact ⟨.float x, by rw [read]; rfl⟩

/-- A finite number is written as a numeral that stands for a number. -/
theorem json?_ofFloat {x : Binary64} (finite : x.Finite) : ∃ v, (ofFloat x).json? = some v := by
  refine json?_isSome ?_
  unfold ofFloat
  dsimp only
  split
  · exact Decimal.ofDigits?_short _ _ (by decide : [0].length ≤ 288)
  split
  · next bounds =>
    have bounded : x.shortest.magnitude ≤ 15 := by
      simp only [Bool.and_eq_true, decide_eq_true_eq] at bounds
      exact bounds.2
    exact Decimal.ofDigits?_short _ _ ((positional_length _ bounded).trans (by decide))
  · exact Decimal.ofDigits?_shortest finite x.negative

end Numeral
end RecordLedger.Json
