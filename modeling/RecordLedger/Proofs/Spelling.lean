import Mathlib.Algebra.GroupWithZero.Nat
import RecordLedger.Malformed

/-! Canonical texts of ids and tags, read back. Lookups compare these texts and every read of a row
decodes them, so a text must name one value only and must always be accepted. The token of a cursor
is read back the same way. -/
namespace RecordLedger

/-- What is read does not depend on how errors are told. -/
theorem mapError_eq_ok_iff {ε ε' α : Type} {f : ε → ε'} {x : Except ε α} {a : α} :
    x.mapError f = .ok a ↔ x = .ok a := by
  constructor
  · intro same
    cases x with
    | ok b =>
      cases same
      rfl
    | error e => cases same
  · rintro rfl
    rfl

namespace Text.Hex

theorem digit?_digitChar (n : Nat) (small : n < 16) : digit? (digitChar n) = some n := by
  have all : ∀ n ∈ List.range 16, digit? (digitChar n) = some n := by decide
  exact all n (List.mem_range.mpr small)

/-- A digit is neither a blank nor one of the characters that open a longer spelling of an id. -/
theorem digitChar_plain (n : Nat) (small : n < 16) :
    isBlank (digitChar n) = false ∧ digitChar n ≠ '\x7b' ∧ (digitChar n).toLower ≠ 'u' := by
  have all : ∀ n ∈ List.range 16, isBlank (digitChar n) = false ∧ digitChar n ≠ '\x7b' ∧
      (digitChar n).toLower ≠ 'u' := by decide
  exact all n (List.mem_range.mpr small)

@[simp] theorem encode_length (octets : List UInt8) :
    (encode octets).length = 2 * octets.length := by
  induction octets with
  | nil => rfl
  | cons octet octets ih => simp only [encode, List.length_cons, ih]; omega

theorem encode_digits (octets : List UInt8) (c : Char) (member : c ∈ encode octets) :
    ∃ n, n < 16 ∧ c = digitChar n := by
  induction octets with
  | nil => simp [encode] at member
  | cons octet octets ih =>
    have bound : octet.toNat < 256 := octet.toNat_lt
    simp only [encode, List.mem_cons] at member
    rcases member with rfl | rfl | member
    · exact ⟨octet.toNat / 16, by omega, rfl⟩
    · exact ⟨octet.toNat % 16, by omega, rfl⟩
    · exact ih member

@[simp] theorem decode?_encode (octets : List UInt8) : decode? (encode octets) = some octets := by
  induction octets with
  | nil => rfl
  | cons octet octets ih =>
    have bound : octet.toNat < 256 := octet.toNat_lt
    have upper := digit?_digitChar (octet.toNat / 16) (by omega)
    have lower := digit?_digitChar (octet.toNat % 16) (by omega)
    have whole : 16 * (octet.toNat / 16) + octet.toNat % 16 = octet.toNat := by omega
    have back : UInt8.ofNat (16 * (octet.toNat / 16) + octet.toNat % 16) = octet := by
      rw [whole, UInt8.ofNat_toNat]
    simp only [encode, decode?, upper, lower, ih, Option.bind_eq_bind, Option.bind_some, back]
    rfl

/-- Decoding looks at every character, so one stray character refuses the whole text. -/
theorem decode?_digits (cs : List Char) (octets : List UInt8)
    (decoded : decode? cs = some octets) (c : Char) (member : c ∈ cs) : isDigit c = true := by
  fun_induction decode? cs generalizing octets with
  | case1 => simp at member
  | case2 => simp at decoded
  | case3 a b cs ih =>
    simp only [Option.bind_eq_bind, Option.bind_eq_some_iff] at decoded
    obtain ⟨upper, ha, lower, hb, rest, hr, _⟩ := decoded
    simp only [List.mem_cons] at member
    rcases member with rfl | rfl | member
    · simp [isDigit, ha]
    · simp [isDigit, hb]
    · exact ih rest hr member

end Text.Hex

theorem Text.trim_eq_self (first last : Char) (cs : List Char)
    (front : isBlank first = false) (back : isBlank last = false)
    (ends : (first :: cs).getLast? = some last) : trim (first :: cs) = first :: cs := by
  obtain ⟨init, whole⟩ := List.getLast?_eq_some_iff.mp ends
  have kept : (first :: cs).dropWhile isBlank = first :: cs := by simp [front]
  rw [trim, kept, whole]
  simp [back]

theorem Text.Hex.trim_encode (octets : List UInt8) :
    Text.trim (encode octets) = encode octets := by
  cases octets with
  | nil => rfl
  | cons octet octets =>
    have filled : encode (octet :: octets) ≠ [] := List.cons_ne_nil _ _
    have solid {c : Char} (member : c ∈ encode (octet :: octets)) : isBlank c = false := by
      obtain ⟨n, small, rfl⟩ := encode_digits _ _ member
      exact (digitChar_plain n small).1
    exact Text.trim_eq_self _ _ _ (solid List.mem_cons_self) (solid (List.getLast_mem filled))
      (List.getLast?_eq_some_getLast filled)

namespace RecordId

/-- Each group but the last must be cut off again at its own length. -/
theorem unhyphenate?_hyphenate (ns : List Nat) (cs : List Char) (some_group : ns ≠ [])
    (length : cs.length = ns.sum) : unhyphenate? ns (hyphenate ns cs) = some cs := by
  fun_induction hyphenate ns cs with
  | case1 => exact absurd rfl some_group
  | case2 n cs => simpa [unhyphenate?] using length
  | case3 n m ns cs ih =>
    have split : cs.length = n + (m :: ns).sum := by simpa using length
    have cut : (cs.take n).length = n := by simp; omega
    have rest := ih (by simp) (by simp only [List.length_drop]; omega)
    have after : (cs.take n ++ '-' :: hyphenate (m :: ns) (cs.drop n)).drop n =
        '-' :: hyphenate (m :: ns) (cs.drop n) := by
      rw [List.drop_append_of_le_length (by omega), List.drop_of_length_le (by omega)]
      rfl
    have front : (cs.take n ++ '-' :: hyphenate (m :: ns) (cs.drop n)).take n = cs.take n := by
      rw [List.take_append_of_le_length (by omega), List.take_of_length_le (by omega)]
    simp only [unhyphenate?, after, rest, front, Option.map_some, List.take_append_drop]

theorem simpleText_length (id : RecordId) : id.simpleText.length = 32 := by
  simp [simpleText, id.length_octets]

theorem ofSimple?_simpleText (id : RecordId) : ofSimple? id.simpleText = some id := by
  simp [ofSimple?, simpleText, ofOctets?, id.length_octets]

theorem ofHyphenated?_chars (id : RecordId) : ofHyphenated? id.chars = some id := by
  have groups_back := unhyphenate?_hyphenate groups id.simpleText (by simp [groups])
    (by simp [simpleText_length, groups])
  simp [ofHyphenated?, chars, groups_back, ofSimple?_simpleText]

theorem hyphenate_head? (n m : Nat) (ns : List Nat) (cs : List Char) (positive : 0 < n)
    (some_char : cs ≠ []) : (hyphenate (n :: m :: ns) cs).head? = cs.head? := by
  obtain ⟨c, cs, rfl⟩ := List.exists_cons_of_ne_nil some_char
  obtain ⟨n, rfl⟩ := Nat.exists_eq_succ_of_ne_zero (Nat.ne_of_gt positive)
  simp [hyphenate]

theorem hyphenate_getLast? (ns : List Nat) (cs : List Char) (positive : ∀ n ∈ ns, 0 < n)
    (length : cs.length = ns.sum) : (hyphenate ns cs).getLast? = cs.getLast? := by
  fun_induction hyphenate ns cs with
  | case1 => rfl
  | case2 => rfl
  | case3 n m ns cs ih =>
    have split : cs.length = n + (m :: ns).sum := by simpa using length
    have more : 0 < (m :: ns).sum := by
      have := positive m (by simp)
      simp only [List.sum_cons]; omega
    have tail : (hyphenate (m :: ns) (cs.drop n)).getLast? = cs.getLast? := by
      rw [ih (fun k member => positive k (List.mem_cons_of_mem _ member))
        (by simp only [List.length_drop]; omega), List.getLast?_drop, if_neg (by omega)]
    have ends : cs.getLast? ≠ none := by
      intro empty
      have nothing : cs.length = 0 := by rw [List.getLast?_eq_none_iff.mp empty]; rfl
      omega
    obtain ⟨last, atLast⟩ := Option.ne_none_iff_exists'.mp ends
    rw [List.getLast?_append, List.getLast?_cons, tail, atLast]
    simp

/-- The canonical text begins and ends with a digit. -/
theorem chars_ends (id : RecordId) : ∃ first rest last, id.chars = first :: rest ∧
    id.chars.getLast? = some last ∧ first ∈ id.simpleText ∧ last ∈ id.simpleText := by
  have length := id.simpleText_length
  have some_digit : id.simpleText ≠ [] := by
    intro empty; simp [empty] at length
  have front : id.chars.head? = id.simpleText.head? :=
    hyphenate_head? 8 4 [4, 4, 12] id.simpleText (by omega) some_digit
  have back : id.chars.getLast? = id.simpleText.getLast? :=
    hyphenate_getLast? groups id.simpleText (by simp [groups]) (by simp [length, groups])
  rw [List.head?_eq_some_head some_digit] at front
  rw [List.getLast?_eq_some_getLast some_digit] at back
  obtain ⟨rest, shape⟩ := List.head?_eq_some_iff.mp front
  exact ⟨_, rest, _, shape, back, List.head_mem _, List.getLast_mem _⟩

theorem hyphen_mem_chars (id : RecordId) : '-' ∈ id.chars := by
  simp [chars, groups, hyphenate]

/-- The other spellings are tried first; a digit in front and a hyphen inside rule them out. -/
theorem ofChars?_chars (id : RecordId) : ofChars? id.chars = some id := by
  obtain ⟨first, rest, last, shape, _, digit, _⟩ := id.chars_ends
  obtain ⟨n, small, rfl⟩ := Text.Hex.encode_digits _ _ digit
  obtain ⟨_, noBrace, noUrn⟩ := Text.Hex.digitChar_plain n small
  have braces : insideBraces? id.chars = none := by
    rw [shape]
    unfold insideBraces?
    split
    · next h => exact absurd (List.cons.inj h).1 noBrace
    · rfl
  have front : afterUrn? id.chars = none := by
    rw [afterUrn?, if_neg]
    intro same
    rw [shape] at same
    exact noUrn (List.cons.inj same).1
  have simple : ofSimple? id.chars = none := by
    cases decoded : Text.Hex.decode? id.chars with
    | none => simp [ofSimple?, decoded]
    | some octets =>
      have := Text.Hex.decode?_digits _ _ decoded '-' id.hyphen_mem_chars
      simp [Text.Hex.isDigit, Text.Hex.digit?] at this
  simp only [ofChars?, braces, front, simple, ofHyphenated?_chars]

theorem read_text (id : RecordId) : read id.text = .ok id := by
  obtain ⟨first, rest, last, shape, ends, firstDigit, lastDigit⟩ := id.chars_ends
  obtain ⟨n, small, rfl⟩ := Text.Hex.encode_digits _ _ firstDigit
  obtain ⟨m, small', rfl⟩ := Text.Hex.encode_digits _ _ lastDigit
  have trimmed : Text.trim id.chars = id.chars := by
    rw [shape] at ends ⊢
    exact Text.trim_eq_self _ _ _ (Text.Hex.digitChar_plain n small).1
      (Text.Hex.digitChar_plain m small').1 ends
  simp [read, text, trimmed, ofChars?_chars]

theorem parse_text (id : RecordId) : RecordId.parse id.text = .ok id := by
  rw [RecordId.parse, read_text]
  rfl

theorem text_injective (a b : RecordId) (same : a.text = b.text) : a = b := by
  have read_a := parse_text a
  rw [same, parse_text b] at read_a
  exact (Except.ok.inj read_a).symm

@[simp] theorem text_inj (a b : RecordId) : a.text = b.text ↔ a = b :=
  ⟨text_injective a b, congrArg text⟩

end RecordId

namespace Tag

theorem parse_text (tag : Tag) : Tag.parse tag.text = .ok tag := by
  have faultless := tag.faultless
  unfold Tag.parse read
  split
  · rfl
  · next f fault => simp [faultless] at fault

theorem text_of_parse (s : String) (tag : Tag) (read : Tag.parse s = .ok tag) : tag.text = s := by
  unfold Tag.parse Tag.read at read
  split at read
  · cases read; rfl
  · cases read

theorem text_injective (a b : Tag) (same : a.text = b.text) : a = b := by
  cases a; cases b; cases same; rfl

@[simp] theorem text_inj (a b : Tag) : a.text = b.text ↔ a = b :=
  ⟨text_injective a b, congrArg text⟩

end Tag

theorem Text.toList_loop (bytes : ByteArray) (i : Nat) (front : List UInt8) :
    ByteArray.toList.loop bytes i front = front.reverse ++ bytes.data.toList.drop i := by
  fun_induction ByteArray.toList.loop bytes i front with
  | case1 i front inside ih =>
    have here : i < bytes.data.toList.length := inside
    rw [ih, List.reverse_cons, List.append_assoc, List.singleton_append,
      List.drop_eq_getElem_cons here]
    congr 2
    exact getElem!_pos bytes.data i inside
  | case2 i front outside =>
    have past : bytes.data.toList.length ≤ i := Nat.le_of_not_lt outside
    rw [List.drop_of_length_le past, List.append_nil]

/-- The octets of a text, put together again. -/
theorem Text.fromUTF8?_octets (s : String) :
    String.fromUTF8? ⟨s.toUTF8.toList.toArray⟩ = some s := by
  have same : s.toUTF8.toList = s.toUTF8.data.toList := toList_loop s.toUTF8 0 []
  rw [same]
  exact dif_pos s.isValidUTF8

theorem Cursor.parse_token (c : Cursor) : Cursor.parse c.token = .ok c := by
  have front : Text.after? mark.toList (mark ++ c.id.text).toList = some c.id.text.toList :=
    Text.after?_eq_some_iff.mpr String.toList_append
  have read : Cursor.read c.token = .ok c := by
    simp only [Cursor.read, token, String.toList_ofList, Text.Hex.trim_encode,
      Text.Hex.decode?_encode, Text.fromUTF8?_octets, front, String.ofList_toList,
      RecordId.read_text]
  rw [Cursor.parse, read]
  rfl

end RecordLedger
