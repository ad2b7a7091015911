import RecordLedger.Proofs.Text.Hex

/-! The spellings of an id. A reader takes exactly these, each for its own id, and the canonical
spelling keeps ids apart and in order. -/
namespace RecordLedger.RecordId

open Text (Ascii Framed Solid append_lt_append_iff)
open Text.Hex (Names Spells encode lowerDigits)

def Grouped (id : RecordId) (cs : List Char) : Prop :=
  ∃ parts : List (List Char), parts.map List.length = [8, 4, 4, 4, 12] ∧
    ['-'].intercalate parts = cs ∧ Spells parts.flatten id.octets

/-- All spellings: the digits alone, in groups, in groups inside braces or in groups behind
`urn:uuid:`. -/
inductive Spelling (id : RecordId) : List Char → Prop
  | simple {cs : List Char} (digits : Spells cs id.octets) : Spelling id cs
  | hyphenated {cs : List Char} (grouped : Grouped id cs) : Spelling id cs
  | braced {cs : List Char} (grouped : Grouped id cs) : Spelling id ('\x7b' :: (cs ++ ['\x7d']))
  | urn {front cs : List Char} (named : front.map Char.toLower = "urn:uuid:".toList)
      (grouped : Grouped id cs) : Spelling id (front ++ cs)

theorem unhyphenate?_cons {n m : Nat} {ns : List Nat} {cs ds : List Char} :
    unhyphenate? (n :: m :: ns) cs = some ds ↔
      ∃ part rest tail, part.length = n ∧ cs = part ++ '-' :: rest ∧
        unhyphenate? (m :: ns) rest = some tail ∧ ds = part ++ tail := by
  constructor
  · intro read
    rw [unhyphenate?] at read
    split at read
    · next rest split =>
      obtain ⟨tail, others, rfl⟩ := Option.map_eq_some_iff.mp read
      have longer : n < cs.length := by
        have := congrArg List.length split
        simp only [List.length_drop, List.length_cons] at this
        omega
      refine ⟨cs.take n, rest, tail, ?_, ?_, others, rfl⟩
      · rw [List.length_take]
        omega
      · rw [← split, List.take_append_drop]
    · cases read
  · rintro ⟨part, rest, tail, rfl, rfl, others, rfl⟩
    rw [unhyphenate?, List.drop_left, List.take_left]
    simp only [others, Option.map_some]

theorem unhyphenate?_eq_some_iff {ns : List Nat} (some_group : ns ≠ []) {cs ds : List Char} :
    unhyphenate? ns cs = some ds ↔
      ∃ parts : List (List Char), parts.map List.length = ns ∧ ['-'].intercalate parts = cs ∧
        parts.flatten = ds := by
  induction ns generalizing cs ds with
  | nil => exact absurd rfl some_group
  | cons n ns ih =>
    cases ns with
    | nil =>
      rw [unhyphenate?]
      constructor
      · intro read
        split at read
        · next length =>
          cases read
          exact ⟨[cs], by simp [length], by simp [List.intercalate], by simp⟩
        · cases read
      · rintro ⟨parts, lengths, joined, rfl⟩
        obtain ⟨part, rfl, length⟩ : ∃ part : List Char, parts = [part] ∧ part.length = n := by
          obtain ⟨part, rest, rfl, length, none⟩ := List.map_eq_cons_iff.mp lengths
          exact ⟨part, by rw [List.map_eq_nil_iff.mp none], length⟩
        obtain rfl : part = cs := by simpa [List.intercalate] using joined
        rw [if_pos length]
        simp
    | cons m ns =>
      rw [unhyphenate?_cons]
      constructor
      · rintro ⟨part, rest, tail, length, rfl, others, rfl⟩
        obtain ⟨parts, lengths, rfl, rfl⟩ := (ih (by simp)).mp others
        refine ⟨part :: parts, by rw [List.map_cons, lengths, length], ?_, List.flatten_cons⟩
        cases parts with
        | nil => cases lengths
        | cons p ps => simp [List.intercalate]
      · rintro ⟨parts, lengths, rfl, rfl⟩
        obtain ⟨part, others, rfl, length, lengths⟩ := List.map_eq_cons_iff.mp lengths
        refine ⟨part, ['-'].intercalate others, others.flatten, length, ?_,
          (ih (by simp)).mpr ⟨others, lengths, rfl, rfl⟩, List.flatten_cons⟩
        cases others with
        | nil => cases lengths
        | cons p ps => simp [List.intercalate]

theorem ofSimple?_eq_some_iff {cs : List Char} {id : RecordId} :
    ofSimple? cs = some id ↔ Spells cs id.octets := by
  rw [ofSimple?, Option.bind_eq_some_iff]
  constructor
  · rintro ⟨octets, decoded, sixteen⟩
    unfold ofOctets? at sixteen
    split at sixteen
    · cases sixteen
      exact Text.Hex.decode?_eq_some_iff.mp decoded
    · cases sixteen
  · intro spells
    exact ⟨id.octets, Text.Hex.decode?_eq_some_iff.mpr spells, dif_pos id.length_octets⟩

theorem ofHyphenated?_eq_some_iff {cs : List Char} {id : RecordId} :
    ofHyphenated? cs = some id ↔ Grouped id cs := by
  have split {ds : List Char} : unhyphenate? groups cs = some ds ↔ _ :=
    unhyphenate?_eq_some_iff (by decide)
  rw [ofHyphenated?, Option.bind_eq_some_iff]
  simp only [split, ofSimple?_eq_some_iff]
  constructor
  · rintro ⟨_, ⟨parts, lengths, joined, rfl⟩, digits⟩
    exact ⟨parts, lengths, joined, digits⟩
  · rintro ⟨parts, lengths, joined, digits⟩
    exact ⟨_, ⟨parts, lengths, joined, rfl⟩, digits⟩

theorem insideBraces?_eq_some_iff {cs inside : List Char} :
    insideBraces? cs = some inside ↔ cs = '\x7b' :: (inside ++ ['\x7d']) := by
  constructor
  · intro read
    unfold insideBraces? at read
    split at read
    · next rest =>
      split at read
      · next last =>
        cases read
        obtain ⟨inside, rfl⟩ := List.getLast?_eq_some_iff.mp last
        rw [List.dropLast_concat]
      · cases read
    · cases read
  · rintro rfl
    simp [insideBraces?]

theorem afterUrn?_eq_some_iff {cs rest : List Char} :
    afterUrn? cs = some rest ↔ ∃ front, front.map Char.toLower = urn ∧ cs = front ++ rest := by
  rw [afterUrn?]
  constructor
  · intro read
    split at read
    · next named =>
      cases read
      exact ⟨cs.take urn.length, named, (List.take_append_drop _ _).symm⟩
    · cases read
  · rintro ⟨front, named, rfl⟩
    have length : urn.length = front.length := by rw [← named, List.length_map]
    rw [length, List.take_left, List.drop_left, if_pos named]

def Opens (cs : List Char) : Prop := ∃ c rest n, cs = c :: rest ∧ Names c n

theorem Opens.insideBraces? {cs : List Char} (opens : Opens cs) : insideBraces? cs = none := by
  obtain ⟨c, rest, n, rfl, names⟩ := opens
  refine Option.eq_none_iff_forall_ne_some.mpr fun inside read => ?_
  exact names.plain.2.1 (List.cons.inj (insideBraces?_eq_some_iff.mp read)).1

theorem Opens.afterUrn? {cs : List Char} (opens : Opens cs) : afterUrn? cs = none := by
  obtain ⟨c, rest, n, rfl, names⟩ := opens
  refine Option.eq_none_iff_forall_ne_some.mpr fun after read => ?_
  obtain ⟨front, named, split⟩ := afterUrn?_eq_some_iff.mp read
  cases front with
  | nil => cases named
  | cons d front =>
    obtain ⟨rfl, -⟩ := List.cons.inj split
    exact names.plain.2.2.2 (List.cons.inj named).1

variable {id : RecordId} {cs : List Char}

theorem opens_of_spells (digits : Spells cs id.octets) : Opens cs := by
  have length := digits.length
  rw [id.length_octets] at length
  obtain ⟨c, rest, rfl⟩ := List.exists_cons_of_length_pos (by omega : 0 < cs.length)
  obtain ⟨n, names⟩ := digits.named c List.mem_cons_self
  exact ⟨c, rest, n, rfl, names⟩

theorem mem_intercalate {parts : List (List Char)} {c : Char}
    (member : c ∈ ['-'].intercalate parts) : c = '-' ∨ c ∈ parts.flatten := by
  induction parts with
  | nil => cases member
  | cons part parts ih =>
    cases parts with
    | nil => exact .inr (by simpa [List.intercalate] using member)
    | cons next parts =>
      simp only [List.intercalate, List.intersperse_cons_cons, List.flatten_cons, List.mem_append,
        List.mem_singleton] at member ih ⊢
      rcases member with inside | rfl | others
      · exact .inr (.inl inside)
      · exact .inl rfl
      · exact (ih others).imp_right .inr

theorem Grouped.opens (grouped : Grouped id cs) : Opens cs := by
  obtain ⟨parts, lengths, rfl, digits⟩ := grouped
  obtain ⟨part, others, rfl, eight, lengths⟩ := List.map_eq_cons_iff.mp lengths
  obtain ⟨next, others, rfl, -, -⟩ := List.map_eq_cons_iff.mp lengths
  obtain ⟨c, part, rfl⟩ := List.exists_cons_of_length_pos (by omega : 0 < part.length)
  obtain ⟨n, names⟩ := digits.named c (by simp)
  exact ⟨c, _, n, by rw [List.intercalate, List.intersperse_cons_cons]; rfl, names⟩

theorem Grouped.hyphen_mem (grouped : Grouped id cs) : '-' ∈ cs := by
  obtain ⟨parts, lengths, rfl, digits⟩ := grouped
  obtain ⟨part, others, rfl, -, lengths⟩ := List.map_eq_cons_iff.mp lengths
  obtain ⟨next, others, rfl, -, -⟩ := List.map_eq_cons_iff.mp lengths
  simp [List.intercalate]

theorem Grouped.solid (grouped : Grouped id cs) : Solid cs := by
  obtain ⟨parts, -, rfl, digits⟩ := grouped
  intro c member
  rcases mem_intercalate member with rfl | digit
  · rfl
  · exact digits.solid c digit

theorem Spelling.solid (spelling : Spelling id cs) : Solid cs := by
  cases spelling with
  | simple digits => exact digits.solid
  | hyphenated grouped => exact grouped.solid
  | braced grouped =>
    intro c member
    simp only [List.mem_cons, List.mem_append, List.not_mem_nil, or_false] at member
    rcases member with rfl | inside | rfl
    · rfl
    · exact grouped.solid c inside
    · rfl
  | @urn front cs named grouped =>
    have letters : Solid "urn:uuid:".toList := by decide
    intro c member
    rcases List.mem_append.mp member with before | behind
    · rw [← Text.isBlank_toLower]
      exact letters _ (named ▸ List.mem_map_of_mem before)
    · exact grouped.solid c behind

/-- The spellings are tried in an order, and none of them is taken for an earlier one. -/
theorem ofChars?_eq_some_iff : ofChars? cs = some id ↔ Spelling id cs := by
  constructor
  · intro read
    unfold ofChars? at read
    split at read
    · next inside braces =>
      obtain rfl := insideBraces?_eq_some_iff.mp braces
      exact .braced (ofHyphenated?_eq_some_iff.mp read)
    split at read
    · next rest front =>
      obtain ⟨front, named, rfl⟩ := afterUrn?_eq_some_iff.mp front
      exact .urn named (ofHyphenated?_eq_some_iff.mp read)
    split at read
    · next simple =>
      cases read
      exact .simple (ofSimple?_eq_some_iff.mp simple)
    · exact .hyphenated (ofHyphenated?_eq_some_iff.mp read)
  · intro spelling
    cases spelling with
    | simple digits =>
      have opens := opens_of_spells digits
      simp only [ofChars?, opens.insideBraces?, opens.afterUrn?, ofSimple?_eq_some_iff.mpr digits]
    | hyphenated grouped =>
      have simple : ofSimple? cs = none := by
        refine Option.eq_none_iff_forall_ne_some.mpr fun other read => ?_
        obtain ⟨n, names⟩ := (ofSimple?_eq_some_iff.mp read).named '-' grouped.hyphen_mem
        exact names.plain.2.2.1 rfl
      simp only [ofChars?, grouped.opens.insideBraces?, grouped.opens.afterUrn?, simple,
        ofHyphenated?_eq_some_iff.mpr grouped]
    | braced grouped =>
      simp only [ofChars?, insideBraces?_eq_some_iff.mpr rfl, ofHyphenated?_eq_some_iff.mpr grouped]
    | @urn front cs named grouped =>
      have braces : insideBraces? (front ++ cs) = none := by
        refine Option.eq_none_iff_forall_ne_some.mpr fun inside read => ?_
        have split := insideBraces?_eq_some_iff.mp read
        cases front with
        | nil => cases named
        | cons d front =>
          obtain ⟨rfl, -⟩ := List.cons.inj split
          exact absurd (List.cons.inj named).1 (by decide)
      simp only [ofChars?, braces, afterUrn?_eq_some_iff.mpr ⟨front, named, rfl⟩,
        ofHyphenated?_eq_some_iff.mpr grouped]

/-- A text is read as an id exactly if white space frames a spelling of that id in it. -/
theorem parse_eq_ok_iff {s : String} :
    RecordId.parse s = .ok id ↔ ∃ cs, Framed cs s.toList ∧ Spelling id cs := by
  have taken : RecordId.parse s = .ok id ↔ ofChars? (Text.trim s.toList) = some id := by
    rw [RecordId.parse, mapError_eq_ok_iff, read]
    cases ofChars? (Text.trim s.toList) <;> simp
  rw [taken, ofChars?_eq_some_iff]
  constructor
  · intro spelling
    exact ⟨_, Text.framed_trim _, spelling⟩
  · rintro ⟨cs, framed, spelling⟩
    rwa [framed.trim_eq spelling.solid]

theorem grouped_chars (id : RecordId) : Grouped id id.chars :=
  ofHyphenated?_eq_some_iff.mp (ofHyphenated?_chars id)

theorem mem_hyphenate (ns : List Nat) (cs : List Char) (c : Char) (member : c ∈ hyphenate ns cs) :
    c = '-' ∨ c ∈ cs := by
  fun_induction hyphenate ns cs with
  | case1 => exact .inr member
  | case2 => exact .inr member
  | case3 n m ns cs ih =>
    rcases List.mem_append.mp member with front | rest
    · exact .inr (List.mem_of_mem_take front)
    · rcases List.mem_cons.mp rest with rfl | behind
      · exact .inl rfl
      · exact (ih behind).imp_right List.mem_of_mem_drop

theorem chars_lower (id : RecordId) : ∀ c ∈ id.chars, c = '-' ∨ c ∈ lowerDigits := by
  intro c member
  exact (mem_hyphenate _ _ c member).imp_right (Text.Hex.encode_lower id.octets c)

theorem chars_ascii (id : RecordId) : Ascii id.chars := by
  intro c member
  rcases mem_hyphenate _ _ c member with rfl | digit
  · decide
  · exact Text.Hex.ascii_encode id.octets c digit

/-- Hyphens at the same places decide nothing. -/
theorem hyphenate_lt_iff (ns : List Nat) {cs ds : List Char} (same : cs.length = ds.length) :
    hyphenate ns cs < hyphenate ns ds ↔ cs < ds := by
  induction ns generalizing cs ds with
  | nil => rfl
  | cons n ns ih =>
    cases ns with
    | nil => rfl
    | cons m ns =>
      have fronts : (cs.take n).length = (ds.take n).length := by
        rw [List.length_take, List.length_take, same]
      have rests : (cs.drop n).length = (ds.drop n).length := by
        rw [List.length_drop, List.length_drop, same]
      have whole := append_lt_append_iff fronts (cs.drop n) (ds.drop n)
      rw [List.take_append_drop, List.take_append_drop] at whole
      rw [hyphenate, hyphenate, append_lt_append_iff fronts, List.cons_lt_cons_iff, ih rests, whole]
      simp

theorem octets_lt_iff (a b : RecordId) :
    a.text.toUTF8.toList < b.text.toUTF8.toList ↔ a.octets < b.octets := by
  have length : a.simpleText.length = b.simpleText.length := by
    rw [simpleText_length, simpleText_length]
  rw [text, text, Text.toUTF8_lt_iff (chars_ascii a) (chars_ascii b), chars, chars,
    hyphenate_lt_iff groups length, simpleText, simpleText, Text.Hex.encode_lt_iff]

theorem le_iff_octets (a b : RecordId) : a.le b = true ↔ a.octets ≤ b.octets := by
  have go (xs ys : List UInt8) : le.go xs ys = true ↔ xs ≤ ys := by
    fun_induction le.go xs ys with
    | case1 => simp
    | case2 => simp
    | case3 x xs y ys ih => simp [ih, List.cons_le_cons_iff]
  exact go a.octets b.octets

/-- Ids are ordered as the octets of their texts are. -/
theorem le_iff_text (a b : RecordId) :
    a.le b = true ↔ a.text.toUTF8.toList ≤ b.text.toUTF8.toList := by
  rw [le_iff_octets, ← List.not_lt, ← List.not_lt, octets_lt_iff]

/-- The texts that are read as an id are its spellings, with white space around them or not. The
canonical text is the spelling in groups of lower-case digits: it is read back, it is the same for
equal ids alone, and the octets of such texts are in the order of the ids. -/
theorem spellings_accepted (s : String) (a b : RecordId) :
    (RecordId.parse s = .ok a ↔ ∃ cs, Framed cs s.toList ∧ Spelling a cs) ∧
    (RecordId.parse a.text = .ok a ∧ Grouped a a.text.toList ∧
      ∀ c ∈ a.text.toList, c = '-' ∨ c ∈ lowerDigits) ∧
    (a.text = b.text ↔ a = b) ∧
    (a.le b = true ↔ a.text.toUTF8.toList ≤ b.text.toUTF8.toList) := by
  have chars : a.text.toList = a.chars := String.toList_ofList
  refine ⟨parse_eq_ok_iff, ⟨parse_text a, ?_, ?_⟩, text_inj a b, le_iff_text a b⟩
  · rw [chars]
    exact grouped_chars a
  · rw [chars]
    exact chars_lower a

/-- Behind an ideographic space, with letters of both cases throughout. -/
example : (RecordId.parse "\u3000uRn:UUID:018F3a2e-0000-7000-8000-00000000abCD\n").toOption.map text =
    some "018f3a2e-0000-7000-8000-00000000abcd" := by
  decide +kernel

end RecordLedger.RecordId
