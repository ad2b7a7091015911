import Mathlib.Data.String.Basic
import RecordLedger.Proofs.Spelling

/-! The UTF-8 octets of a text, and the order of texts by them. Where all characters are ASCII the
octets are the characters, so both orders agree. -/
namespace RecordLedger.Text

theorem toUTF8_toList (s : String) :
    s.toUTF8.toList = s.toList.flatMap String.utf8EncodeChar := by
  have same : s.toUTF8.toList = s.toUTF8.data.toList := toList_loop s.toUTF8 0 []
  rw [same, String.toUTF8_eq_toByteArray, ← String.utf8Encode_toList, List.utf8Encode,
    List.toList_data_toByteArray]

/-- A text has at least one octet for each character. -/
theorem length_le_size (cs : List Char) : cs.length ≤ (String.ofList cs).utf8ByteSize := by
  rw [String.utf8ByteSize_ofList]
  induction cs with
  | nil => exact Nat.le_refl _
  | cons c cs ih =>
    have positive := c.utf8Size_pos
    rw [List.length_cons, String.utf8Len_cons]
    omega

def Ascii (cs : List Char) : Prop := ∀ c ∈ cs, c.toNat < 128

theorem utf8EncodeChar_ascii {c : Char} (ascii : c.toNat < 128) :
    String.utf8EncodeChar c = [UInt8.ofNat c.toNat] := by
  have small : c.val.toNat ≤ 127 := Nat.le_of_lt_succ ascii
  rw [String.utf8EncodeChar, if_pos small]
  rfl

theorem toUTF8_ascii {cs : List Char} (ascii : Ascii cs) :
    (String.ofList cs).toUTF8.toList = cs.map fun c => UInt8.ofNat c.toNat := by
  rw [toUTF8_toList, String.toList_ofList]
  induction cs with
  | nil => rfl
  | cons c cs ih =>
    obtain ⟨first, rest⟩ := List.forall_mem_cons.mp ascii
    rw [List.flatMap_cons, utf8EncodeChar_ascii first, ih rest]
    rfl

section Lexicographic

variable {α β : Type} [LT α] [LT β]

/-- Behind parts of one length the rests decide only if the parts are equal. -/
theorem append_lt_append_iff {front front' : List α} (length : front.length = front'.length)
    (back back' : List α) :
    front ++ back < front' ++ back' ↔ front < front' ∨ front = front' ∧ back < back' := by
  induction front generalizing front' with
  | nil =>
    obtain rfl : front' = [] := List.length_eq_zero_iff.mp length.symm
    simp
  | cons x front ih =>
    obtain ⟨y, front', rfl⟩ := List.exists_cons_of_length_eq_add_one length.symm
    simp only [List.length_cons, Nat.add_right_cancel_iff] at length
    rw [List.cons_append, List.cons_append, List.cons_lt_cons_iff, ih length,
      List.cons_lt_cons_iff, List.cons.injEq, and_or_left, or_assoc, and_assoc]

/-- Taking every element by itself to one with the same place among the others keeps the order. -/
theorem map_lt_map_iff {f : α → β} {P : α → Prop} {xs ys : List α}
    (monotone : ∀ x y, P x → P y → (f x < f y ↔ x < y))
    (injective : ∀ x y, P x → P y → (f x = f y ↔ x = y))
    (left : ∀ x ∈ xs, P x) (right : ∀ y ∈ ys, P y) : xs.map f < ys.map f ↔ xs < ys := by
  induction xs generalizing ys with
  | nil => cases ys <;> simp
  | cons x xs ih =>
    cases ys with
    | nil => simp
    | cons y ys =>
      obtain ⟨x_in, left⟩ := List.forall_mem_cons.mp left
      obtain ⟨y_in, right⟩ := List.forall_mem_cons.mp right
      rw [List.map_cons, List.map_cons, List.cons_lt_cons_iff, List.cons_lt_cons_iff,
        monotone x y x_in y_in, injective x y x_in y_in, ih left right]

end Lexicographic

theorem ascii_lt_iff {c d : Char} (left : c.toNat < 128) (right : d.toNat < 128) :
    UInt8.ofNat c.toNat < UInt8.ofNat d.toNat ↔ c < d := by
  rw [UInt8.lt_iff_toNat_lt, UInt8.toNat_ofNat', UInt8.toNat_ofNat', Nat.mod_eq_of_lt (by omega),
    Nat.mod_eq_of_lt (by omega), Char.lt_def, UInt32.lt_iff_toNat_lt]
  rfl

theorem ascii_eq_iff {c d : Char} (left : c.toNat < 128) (right : d.toNat < 128) :
    UInt8.ofNat c.toNat = UInt8.ofNat d.toNat ↔ c = d := by
  rw [← UInt8.toNat_inj, UInt8.toNat_ofNat', UInt8.toNat_ofNat', Nat.mod_eq_of_lt (by omega),
    Nat.mod_eq_of_lt (by omega), Char.toNat_inj]

/-- The order of ASCII texts by their octets is that by their characters. -/
theorem toUTF8_lt_iff {cs ds : List Char} (left : Ascii cs) (right : Ascii ds) :
    (String.ofList cs).toUTF8.toList < (String.ofList ds).toUTF8.toList ↔ cs < ds := by
  rw [toUTF8_ascii left, toUTF8_ascii right]
  exact map_lt_map_iff (fun _ _ => ascii_lt_iff) (fun _ _ => ascii_eq_iff) left right

end RecordLedger.Text
