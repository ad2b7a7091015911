import RecordLedger.Proofs.Text.Counts
import RecordLedger.Proofs.Toml.Keys

/-! Lines of TOML with a key and a value, read one after the other. What a line puts into the
document does not depend on the lines behind it, so a text is read by putting its lines together. -/
namespace RecordLedger.Toml

open Text.Numeral (digitChar)

variable {cs ds : List Char} {v : Toml}

namespace Scalar

theorem digits?_digitChars {ds : List Nat} (filled : ds ≠ []) (small : ∀ d ∈ ds, d < 10) :
    digits? Text.Numeral.digit? (ds.map digitChar) = some ds := by
  induction ds with
  | nil => exact absurd rfl filled
  | cons d ds ih =>
    obtain ⟨first, others⟩ := List.forall_mem_cons.mp small
    cases ds with
    | nil => simp [digits?, Text.Numeral.digit?_digitChar first]
    | cons e ds =>
      have digit : digitChar e ≠ '_' := by
        intro same
        have read := Text.Numeral.digit?_digitChar (others e List.mem_cons_self)
        rw [same] at read
        cases read
      have rest := ih (List.cons_ne_nil _ _) others
      rw [List.map_cons] at rest
      rw [List.map_cons, List.map_cons, digits?, rest, Text.Numeral.digit?_digitChar first]
      · rfl
      · exact List.cons_ne_nil _ _
      · exact fun _ same => digit (List.cons.inj same).1

theorem whole?_ofNat (n : Nat) : whole? (Text.Numeral.ofNat n) = some (Text.Numeral.digits n) := by
  have leading := Text.Numeral.digits_leading n
  rw [whole?, Text.Numeral.ofNat, digits?_digitChars leading.ne_nil (Text.Numeral.digits_small n),
    Option.filter_some]
  rcases leading with zero | ⟨d, ds, shape, positive⟩
  · rw [zero]
    rfl
  · rw [shape]
    split
    · next zero => exact absurd (List.cons.inj zero).1 positive
    · rfl

theorem ofNat_chars (n : Nat) : ∀ c ∈ Text.Numeral.ofNat n, c.isDigit = true := by
  have all : ∀ d ∈ List.range 10, (digitChar d).isDigit = true := by decide
  intro c member
  obtain ⟨d, small, rfl⟩ := Text.Numeral.ofNat_digits n c member
  exact all d (List.mem_range.mpr small)

theorem int?_ofNat {n : Nat} (fits : n ≤ Word.maxSigned) :
    int? (Text.Numeral.ofNat n) = some (n : Int) := by
  have chars := ofNat_chars n
  have decimal : ((whole? (Text.Numeral.ofNat n)).map fun ds =>
      (Text.Numeral.value 10 ds : Int)) = some (n : Int) := by
    rw [whole?_ofNat, Option.map_some, Text.Numeral.value_digits]
  have signed : Word.fitsSigned n = true := by
    have least : Word.minSigned ≤ n := Int.le_trans (by decide) (Int.natCast_nonneg n)
    simp [Word.fitsSigned, least, fits]
  have refuse {d : Char} {cs : List Char} (front : List Char)
      (shape : Text.Numeral.ofNat n = front ++ d :: cs) (other : d.isDigit = false) : False := by
    have digit := chars d (shape ▸ List.mem_append_right _ List.mem_cons_self)
    rw [other] at digit
    cases digit
  unfold int?
  dsimp only
  split
  · next shape => exact (refuse ['0'] shape rfl).elim
  · next shape => exact (refuse ['0'] shape rfl).elim
  · next shape => exact (refuse ['0'] shape rfl).elim
  · next shape => exact (refuse [] shape rfl).elim
  · next shape => exact (refuse [] shape rfl).elim
  · rw [decimal, Option.filter_some, if_pos signed]

theorem ofChars?_ofNat {n : Nat} (fits : n ≤ Word.maxSigned) :
    ofChars? (Text.Numeral.ofNat n) = some (.int n) := by
  have word {c : Char} {cs : List Char} (other : c.isDigit = false) :
      (Text.Numeral.ofNat n == c :: cs) = false := by
    rw [beq_eq_false_iff_ne]
    intro same
    have digit := ofNat_chars n c (same ▸ List.mem_cons_self)
    rw [other] at digit
    cases digit
  have yes : (Text.Numeral.ofNat n == "true".toList) = false := word rfl
  have no : (Text.Numeral.ofNat n == "false".toList) = false := word rfl
  rw [ofChars?, yes, no, int?_ofNat fits]
  rfl

theorem take_line (scalar : ∀ c ∈ cs, isScalarChar c = true) (rest : List Char) :
    take (cs ++ '\n' :: rest) = (cs, '\n' :: rest) := by
  have spanned : (cs ++ '\n' :: rest).span isScalarChar = (cs, '\n' :: rest) := by
    rw [List.span_eq_takeWhile_dropWhile, List.takeWhile_append_of_pos scalar,
      List.dropWhile_append_of_pos scalar]
    exact congrArg (·, '\n' :: rest) (List.append_nil cs)
  rw [take, spanned]
  rfl

end Scalar

namespace Quoted

def Plain (c : Char) : Prop := c ≠ '"' ∧ c ≠ '\\' ∧ 32 ≤ c.toNat ∧ c.toNat ≠ 127

instance (c : Char) : Decidable (Plain c) := inferInstanceAs (Decidable (_ ∧ _ ∧ _ ∧ _))

theorem plain_of_all {s : List Char} (all : s.all (decide <| Plain ·) = true) :
    ∀ c ∈ s, Plain c :=
  fun c member => of_decide_eq_true (List.all_eq_true.mp all c member)

variable {s : List Char} (plain : ∀ c ∈ s, Plain c)
include plain

theorem write_plain : write s = '"' :: s ++ ['"'] := by
  have absent {d : Char} (other : ¬ Plain d) : s.contains d = false := by
    rw [List.contains_eq_mem, decide_eq_false_iff_not]
    exact fun member => other (plain d member)
  have control : s.any needsEscape = false := by
    rw [List.any_eq_false]
    intro c member
    obtain ⟨-, -, shown, noDelete⟩ := plain c member
    simp [needsEscape, Nat.not_lt.mpr shown, noDelete]
  have feed : s.contains '\n' = false := absent fun p => absurd p.2.2.1 (by decide)
  have backslash : s.contains '\\' = false := absent fun p => p.2.1 rfl
  have quote : s.contains '"' = false := absent fun p => p.1 rfl
  simp only [write, control, feed, backslash, quote, Bool.not_false, Bool.and_self, if_true]

theorem readBasic_plain {fuel : Nat} (enough : s.length < fuel) (rest : List Char) :
    readBasic fuel (s ++ '"' :: rest) = some (s, rest) := by
  induction s generalizing fuel with
  | nil =>
    obtain ⟨fuel, rfl⟩ := Nat.exists_eq_add_one.mpr (Nat.zero_lt_of_lt enough)
    rfl
  | cons c s ih =>
    obtain ⟨fuel, rfl⟩ := Nat.exists_eq_add_one.mpr (Nat.zero_lt_of_lt enough)
    obtain ⟨⟨noQuote, noBackslash, shown, noDelete⟩, others⟩ := List.forall_mem_cons.mp plain
    have lineChar : isLineChar c = true := by simp [isLineChar, shown, noDelete]
    rw [List.cons_append, readBasic, if_pos lineChar, ih others (Nat.lt_of_succ_lt_succ enough)]
    · rfl
    · exact noQuote
    · exact noBackslash

theorem read_plain (rest : List Char) :
    read ('"' :: s ++ '"' :: '\n' :: rest) = some (s, '\n' :: rest) := by
  have line : readLine ('"' :: s ++ '"' :: '\n' :: rest) = some (s, '\n' :: rest) :=
    readBasic_plain plain (Nat.lt_succ_of_le (List.sublist_append_left s _).length_le) _
  unfold read
  split
  · next shape =>
    cases s with
    | nil => simp at shape
    | cons c s =>
      obtain ⟨-, second⟩ := List.cons.inj shape
      exact absurd (List.cons.inj second).1 (plain c List.mem_cons_self).1
  · next shape => exact absurd (List.cons.inj shape).1 (by decide)
  · exact line

end Quoted

namespace Reader

/-- The text stands for the value, if its line ends behind it. -/
structure Spells (cs : List Char) (v : Toml) : Prop where
  solid : ∃ c rest, cs = c :: rest ∧ Quoted.isSpace c = false
  read : ∀ rest, value (cs ++ '\n' :: rest) = some (v, '\n' :: rest)

theorem isScalarChar_plain {c : Char} (scalar : Scalar.isScalarChar c = true) :
    Quoted.isSpace c = false ∧ c ≠ '"' ∧ c ≠ '\'' ∧ c ≠ '[' ∧ c ≠ '\x7b' := by
  have differs (d : Char) (other : Scalar.isScalarChar d = false) : c ≠ d := by
    rintro rfl
    exact absurd scalar (by simp [other])
  refine ⟨?_, differs _ rfl, differs _ rfl, differs _ rfl, differs _ rfl⟩
  simp [Quoted.isSpace, differs ' ' rfl, differs '\t' rfl]

theorem valueWithin_scalar {c : Char} (scalar : Scalar.isScalarChar c = true) (depth : Nat)
    (cs : List Char) :
    valueWithin (depth + 1) (c :: cs) =
      (Scalar.ofChars? (Scalar.take (c :: cs)).1).map (·, (Scalar.take (c :: cs)).2) := by
  obtain ⟨-, double, single, bracket, brace⟩ := isScalarChar_plain scalar
  have others : valueWithin (depth + 1) (c :: cs) = (do
      let text ← get
      set (Scalar.take text).2
      (Scalar.ofChars? (Scalar.take text).1 : Option Toml) : Reader Toml) (c :: cs) := by
    rw [valueWithin, bind_run (a := some c) rfl]
    refine congrFun (?_ : (_ : Reader Toml) = _) (c :: cs)
    split
    · next same => exact absurd (Option.some.inj same) double
    · next same => exact absurd (Option.some.inj same) single
    · next same => exact absurd (Option.some.inj same) bracket
    · next same => exact absurd (Option.some.inj same) brace
    · rfl
  rw [others, get_bind]
  exact Option.map_eq_bind.symm

theorem spells_scalar (filled : cs ≠ []) (scalar : ∀ c ∈ cs, Scalar.isScalarChar c = true)
    (read : Scalar.ofChars? cs = some v) : Spells cs v := by
  obtain ⟨c, rest, rfl⟩ := List.exists_cons_of_ne_nil filled
  have first := scalar c List.mem_cons_self
  refine ⟨⟨c, rest, rfl, (isScalarChar_plain first).1⟩, fun after => ?_⟩
  have taken := Scalar.take_line scalar after
  rw [List.cons_append] at taken ⊢
  change valueWithin _ _ = _
  rw [valueWithin_scalar first, taken, read]
  rfl

theorem spells_ofNat {n : Nat} (fits : n ≤ Word.maxSigned) :
    Spells (Text.Numeral.ofNat n) (.int n) := by
  refine spells_scalar (Text.Numeral.ofNat_ne_nil n) (fun c member => ?_)
    (Scalar.ofChars?_ofNat fits)
  have digit := Scalar.ofNat_chars n c member
  simp [Scalar.isScalarChar, Char.isAlphanum, digit]

theorem spells_string {s : List Char} (plain : ∀ c ∈ s, Quoted.Plain c) :
    Spells (Quoted.write s) (.string (String.ofList s)) := by
  rw [Quoted.write_plain plain]
  refine ⟨⟨_, _, rfl, rfl⟩, fun rest => ?_⟩
  have text : '"' :: s ++ ['"'] ++ '\n' :: rest = '"' :: s ++ '"' :: '\n' :: rest := by simp
  have read := Quoted.read_plain plain rest
  rw [text]
  change valueWithin _ _ = _
  rw [valueWithin, bind_run (a := some '"') rfl]
  exact bind_run (x := lifted Quoted.read) read

structure Entry where
  key : String
  text : List Char
  value : Toml
  bare : Bare key
  spells : Spells text value

namespace Entry

def chars (e : Entry) : List Char := e.key.toList ++ " = ".toList ++ e.text ++ ['\n']

def member (e : Entry) : String × Toml := (e.key, e.value)

theorem chars_append (e : Entry) (rest : List Char) :
    e.chars ++ rest = e.key.toList ++ ' ' :: '=' :: ' ' :: (e.text ++ '\n' :: rest) := by
  simp [chars]

theorem assignment (e : Entry) (rest : List Char) :
    Reader.assignment Reader.value (e.chars ++ rest) =
      some ((([], e.key), e.value), '\n' :: rest) := by
  obtain ⟨c, cs, shape, solid⟩ := e.spells.solid
  have key := e.bare.key (' ' :: '=' :: ' ' :: (e.text ++ '\n' :: rest))
    (by rintro c ⟨⟩; rfl) nofun
  have full : ∀ c ∈ (e.text ++ '\n' :: rest).head?, Quoted.isSpace c = false := by
    rw [shape]
    rintro d ⟨⟩
    exact solid
  rw [chars_append, Reader.assignment, bind_run key,
    bind_run (skipSpaces_space (by rintro c ⟨⟩; rfl)), bind_run (expect_cons '=' _),
    bind_run (skipSpaces_space full), bind_run (e.spells.read rest)]
  rfl

theorem entry (e : Entry) {p : Progress} {document : Toml}
    (placed : underHeaders (assign [] e.key e.value) p.path p.document = some document)
    (rest : List Char) :
    Reader.entry p (e.chars ++ rest) = some (⟨document, p.path⟩, rest) := by
  rw [Reader.entry, bind_run (e.assignment rest)]
  dsimp only
  rw [bind_run (restOfLine_newline rest), placed]
  rfl

theorem line (e : Entry) {p : Progress} {document : Toml}
    (placed : underHeaders (assign [] e.key e.value) p.path p.document = some document)
    (rest : List Char) :
    Reader.line p (e.chars ++ rest) = some (some ⟨document, p.path⟩, rest) := by
  have full : Full (e.chars ++ rest) := by
    rw [chars_append]
    exact e.bare.full _
  have skipped : skipAll (e.chars ++ rest) = some ((), e.chars ++ rest) := skipLines_full full _
  have read := e.entry placed rest
  obtain ⟨c, cs, shape, first⟩ := e.bare.head
  obtain ⟨-, -, -, -, -, -, noBracket⟩ := bareKeyChar_plain first
  have front : (e.chars ++ rest).head? = some c := by rw [chars_append, shape]; rfl
  have entries : Reader.line p (e.chars ++ rest) = (do return some (← Reader.entry p) :
      Reader (Option Progress)) (e.chars ++ rest) := by
    rw [Reader.line, bind_run skipped, bind_run (peek_run _), front]
    refine congrFun (?_ : (_ : Reader (Option Progress)) = _) (e.chars ++ rest)
    split
    · next same => cases same
    · next same => exact absurd (Option.some.inj same) noBracket
    · rfl
  rw [entries, bind_run read]
  rfl

end Entry

theorem line_header {name : String} (bare : Bare name) {p : Progress} {document : Toml}
    (opened : underHeaders (openTable name) [] p.document = some document) (rest : List Char) :
    line p ('\n' :: '[' :: (name.toList ++ ']' :: '\n' :: rest)) =
      some (some ⟨document, [name]⟩, rest) := by
  have skipped : skipAll ('\n' :: '[' :: (name.toList ++ ']' :: '\n' :: rest)) =
      some ((), '[' :: (name.toList ++ ']' :: '\n' :: rest)) := by
    have full : Full ('[' :: (name.toList ++ ']' :: '\n' :: rest)) := by
      rintro c ⟨⟩
      decide
    rw [skipAll, get_bind, List.length_cons, skipLines_newline, skipLines_full full]
  have single : accept '[' (name.toList ++ ']' :: '\n' :: rest) =
      some (false, name.toList ++ ']' :: '\n' :: rest) := by
    refine accept_other ?_
    obtain ⟨c, cs, shape, first⟩ := bare.head
    rw [shape]
    exact fun same => (bareKeyChar_plain first).2.2.2.2.2.2 (Option.some.inj same)
  have key := bare.key (']' :: '\n' :: rest) (by rintro c ⟨⟩; rfl) nofun
  have read : header p (name.toList ++ ']' :: '\n' :: rest) =
      some (⟨document, [name]⟩, rest) := by
    rw [header, bind_run single,
      bind_run (skipSpaces_full fun c head => (bare.full _ c head).1), bind_run key]
    dsimp only
    rw [bind_run (skipSpaces_full (by rintro c ⟨⟩; rfl)), bind_run (expect_cons ']' _)]
    change (restOfLine >>= _) ('\n' :: rest) = _
    rw [bind_run (restOfLine_newline rest), if_neg Bool.false_ne_true, opened]
    rfl
  rw [line, bind_run skipped]
  exact bind_run (f := fun p => pure (some p)) read

theorem line_end (p : Progress) : line p [] = some (none, []) := rfl

/-- Where the lines under a path go: into a table, which is a part of the document. -/
def Place (path : List String) (document : Members → Toml) : Prop :=
  ∀ ms key v, Members.find? ms key = none →
    underHeaders (assign [] key v) path (document ms) = some (document (ms ++ [(key, v)]))

theorem find?_eq_none_iff {ms : Members} {key : String} :
    Members.find? ms key = none ↔ key ∉ ms.map (·.1) := by
  rw [Members.find?, Option.map_eq_none_iff, List.find?_eq_none, List.mem_map]
  simp only [decide_eq_true_eq]
  exact ⟨fun absent ⟨m, member, same⟩ => absent m member same,
    fun absent m member same => absent ⟨m, member, same⟩⟩

theorem assign_fresh {ms : Members} {key : String} (fresh : Members.find? ms key = none)
    (v : Toml) (origin : Origin) :
    assign [] key v origin ms = some (.table origin (ms ++ [(key, v)])) := by
  simp [assign, change, define, fresh]

theorem place_root : Place [] (.table .header) := fun _ _ v fresh => assign_fresh fresh v .header

theorem find?_last {front : Members} {name : String} (fresh : Members.find? front name = none)
    (v : Toml) : Members.find? (front ++ [(name, v)]) name = some v := by
  have none_in_front := Option.map_eq_none_iff.mp fresh
  simp [Members.find?, none_in_front]

theorem put_last {front : Members} {name : String} (fresh : Members.find? front name = none)
    (v w : Toml) : Members.put name w (front ++ [(name, v)]) = front ++ [(name, w)] := by
  induction front with
  | nil => simp [Members.put]
  | cons m front ih =>
    obtain ⟨key, x⟩ := m
    have other : key ≠ name := by
      rintro rfl
      simp [Members.find?] at fresh
    have behind : Members.find? front name = none := by
      simpa [Members.find?, other] using fresh
    rw [List.cons_append, Members.put, if_neg other, ih behind, List.cons_append]

theorem place_section {front : Members} {name : String}
    (fresh : Members.find? front name = none) :
    Place [name] fun ms => .table .header (front ++ [(name, .table .header ms)]) := by
  intro ms key v absent
  simp [underHeaders, change, find?_last fresh, put_last fresh, assign_fresh absent]

/-- Lines with different keys put their members into the place one after the other. -/
theorem Place.rounds {path : List String} {document : Members → Toml} (place : Place path document)
    {es : List Entry} (ms : Members) (distinct : (ms.map (·.1) ++ es.map (·.key)).Nodup)
    (rest : List Char) :
    Rounds line es.length ⟨document ms, path⟩ (es.flatMap Entry.chars ++ rest)
      ⟨document (ms ++ es.map Entry.member), path⟩ rest := by
  induction es generalizing ms with
  | nil =>
    rw [List.map_nil, List.append_nil]
    exact .stay _ _
  | cons e es ih =>
    have fresh : Members.find? ms e.key = none := by
      rw [find?_eq_none_iff]
      exact fun member => (List.nodup_append.mp distinct).2.2 _ member _ List.mem_cons_self rfl
    have others : ((ms ++ [e.member]).map (·.1) ++ es.map (·.key)).Nodup := by
      simpa [Entry.member] using distinct
    have behind := ih (ms ++ [e.member]) others
    rw [List.append_assoc] at behind
    rw [List.flatMap_cons, List.append_assoc]
    exact .go (e.line (place ms e.key e.value fresh) _) behind

theorem length_le_flatMap (es : List Entry) : es.length ≤ (es.flatMap Entry.chars).length := by
  induction es with
  | nil => exact Nat.zero_le _
  | cons e es ih =>
    have filled : 0 < e.chars.length := by
      simp only [Entry.chars, List.length_append, List.length_singleton]
      omega
    rw [List.flatMap_cons, List.length_append, List.length_cons]
    omega

end Reader

open Reader (Bare Entry)

def document (own : List Entry) (name : String) (entries : List Entry) : List Char :=
  own.flatMap Entry.chars ++ '\n' :: '[' :: (name.toList ++ ']' :: '\n' ::
    entries.flatMap Entry.chars)

/-- A document is read as the members of its lines, in their order. -/
theorem ofText?_document {own entries : List Entry} {name : String} (bare : Bare name)
    (outer : (own.map (·.key) ++ [name]).Nodup) (inner : (entries.map (·.key)).Nodup) :
    ofText? (String.ofList (document own name entries)) =
      some (.table .header
        (own.map Entry.member ++ [(name, .table .header (entries.map Entry.member))])) := by
  have fresh : Members.find? (own.map Entry.member) name = none := by
    rw [Reader.find?_eq_none_iff, List.map_map]
    exact fun member => (List.nodup_append.mp outer).2.2 _ member _ (List.mem_singleton_self _) rfl
  have opened : underHeaders (openTable name) [] (.table .header (own.map Entry.member)) =
      some (.table .header (own.map Entry.member ++ [(name, .table .header [])])) := by
    simp [underHeaders, change, openTable, fresh]
  have front := Reader.place_root.rounds [] (List.nodup_append.mp outer).1
    ('\n' :: '[' :: (name.toList ++ ']' :: '\n' :: entries.flatMap Entry.chars))
  have section_ := (Reader.place_section fresh).rounds [] inner []
  rw [List.append_nil] at section_
  have rounds := front.append (.go (Reader.line_header bare (p := ⟨_, []⟩) opened _) section_)
  have enough : own.length + (entries.length + 1) ≤ (document own name entries).length := by
    have first := Reader.length_le_flatMap own
    have second := Reader.length_le_flatMap entries
    simp only [document, List.length_append, List.length_cons]
    omega
  have read := rounds.exhaust (Reader.line_end _) enough
  have unmarked : ∀ cs, document own name entries ≠ '\ufeff' :: cs := by
    intro cs same
    cases own with
    | nil => exact absurd (List.cons.inj same).1 (by decide)
    | cons e own =>
      obtain ⟨c, rest, shape, first⟩ := e.bare.head
      simp only [document, List.flatMap_cons, Entry.chars, shape, List.cons_append] at same
      rw [(List.cons.inj same).1] at first
      exact absurd first (by decide)
  unfold ofText?
  rw [String.toList_ofList]
  split
  · next marked => exact absurd marked (unmarked _)
  · exact congrArg (Option.map (·.1.document)) read

end RecordLedger.Toml
