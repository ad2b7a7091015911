import Mathlib.Data.List.TakeWhile
import RecordLedger.Command.Run
import RecordLedger.Proofs.Json.RoundTrip
import RecordLedger.Proofs.Ledger.Binding
import RecordLedger.Proofs.RecordId

/-! Arguments of a statement as the command line gives them: JSON where they read as JSON, and texts
otherwise. A number has a hyphen in front and one behind its `e` at most, so no id is taken for one,
not even an id whose digits begin like a number. -/
namespace RecordLedger

open Text.Hex (lowerDigits)

namespace Json.Token

theorem takeDigits_hyphens (cs : List Char) :
    (Text.Numeral.takeDigits cs).2.count '-' = cs.count '-' := by
  fun_induction Text.Numeral.takeDigits cs with
  | case1 => rfl
  | case2 c cs d digit ds rest taken ih =>
    have other : c ≠ '-' := by
      rintro rfl
      cases digit
    rw [taken] at ih
    rw [ih, List.count_cons_of_ne other]
  | case3 => rfl

theorem readFraction_hyphens {cs rest : List Char} {ds : List Nat}
    (read : readFraction cs = some (ds, rest)) : rest.count '-' = cs.count '-' := by
  unfold readFraction at read
  split at read
  · next behind =>
    have same := takeDigits_hyphens behind
    split at read
    · cases read
    · next taken =>
      cases read
      rw [taken] at same
      rw [same, List.count_cons_of_ne (by decide)]
  · cases read
    rfl

theorem readExponentDigits_hyphens {sign : Int} {cs rest : List Char} {e : Option Int}
    (read : readExponentDigits sign cs = some (e, rest)) : rest.count '-' = cs.count '-' := by
  have same := takeDigits_hyphens cs
  unfold readExponentDigits at read
  split at read
  · cases read
  · next taken =>
    cases read
    rwa [taken] at same

/-- A power of ten has its sign alone. -/
theorem readExponent_hyphens {cs rest : List Char} {e : Option Int}
    (read : readExponent cs = some (e, rest)) : cs.count '-' ≤ rest.count '-' + 1 := by
  unfold readExponent at read
  split at read
  · next c behind =>
    split at read
    · next mark =>
      have letter : c ≠ '-' := by
        rintro rfl
        cases mark
      rw [List.count_cons_of_ne letter]
      split at read
      · rw [readExponentDigits_hyphens read, List.count_cons_of_ne (by decide)]
        exact Nat.le_succ _
      · rw [readExponentDigits_hyphens read, List.count_cons_self]
      · rw [readExponentDigits_hyphens read]
        exact Nat.le_succ _
    · cases read
      exact Nat.le_succ _
  · cases read
    exact Nat.le_succ _

theorem readMagnitude_hyphens {negative : Bool} {cs rest : List Char} {n : Numeral}
    (read : readMagnitude negative cs = some (n, rest)) :
    cs.count '-' ≤ rest.count '-' + 1 := by
  have whole := takeDigits_hyphens cs
  unfold readMagnitude at read
  split at read
  · cases read
  · cases read
  · next taken =>
    rw [taken] at whole
    split at read
    · cases read
    · next fraction =>
      split at read
      · cases read
      · next exponent =>
        cases read
        rw [← whole, ← readFraction_hyphens fraction]
        exact readExponent_hyphens exponent

/-- No word of JSON is made of digits and hyphens, `false` by its third letter. -/
theorem next?_lowerDigit {c : Char} {cs : List Char} (digit : c ∈ lowerDigits)
    (letters : ∀ d ∈ cs, d = '-' ∨ d ∈ lowerDigits) :
    next? (c :: cs) = (readMagnitude false (c :: cs)).map fun (n, rest) => (.number n, rest) := by
  generalize text : c :: cs = whole
  unfold next?
  split
  case h_1 => cases text
  case h_11 rest =>
    obtain ⟨-, rfl⟩ := List.cons.inj text
    exact absurd (letters 'l' (by simp)) (by decide)
  case h_13 => rfl
  all_goals
    obtain ⟨rfl, -⟩ := List.cons.inj text
    exact absurd digit (by decide)

theorem lexWith_eq_nil {fuel : Nat} {cs : List Char} (lexed : lexWith fuel cs = some []) :
    ∀ c ∈ cs, isSpace c = true := by
  cases fuel with
  | zero => cases lexed
  | succ fuel =>
    rw [lexWith] at lexed
    split at lexed
    · next blank => exact List.dropWhile_eq_nil_iff.mp blank
    · split at lexed
      · cases lexed
      · obtain ⟨_, _, some_token⟩ := Option.map_eq_some_iff.mp lexed
        cases some_token

/-- Behind the number in front there is a hyphen left, and so a token. -/
theorem lex_lowerDigit {c : Char} {cs : List Char} {tokens : List Token}
    (digit : c ∈ lowerDigits) (letters : ∀ d ∈ cs, d = '-' ∨ d ∈ lowerDigits)
    (hyphens : 2 ≤ cs.count '-') (lexed : lex (c :: cs) = some tokens) :
    ∃ n ts, tokens = .number n :: ts ∧ ts ≠ [] := by
  have all : lowerDigits.all (!isSpace ·) = true := by decide
  have solid : isSpace c = false := by simpa using List.all_eq_true.mp all c digit
  rw [lex, lexWith, List.dropWhile_cons_of_neg (by simp [solid])] at lexed
  simp only [next?_lowerDigit digit letters] at lexed
  cases read : readMagnitude false (c :: cs) with
  | none =>
    rw [read] at lexed
    cases lexed
  | some number =>
    obtain ⟨n, rest⟩ := number
    rw [read] at lexed
    obtain ⟨ts, others, rfl⟩ := Option.map_eq_some_iff.mp lexed
    refine ⟨n, ts, rfl, ?_⟩
    rintro rfl
    have left := readMagnitude_hyphens read
    have all := List.count_le_count_cons (a := '-') (b := c) (l := cs)
    have hyphen : '-' ∈ rest := List.count_pos_iff.mp (by omega)
    exact absurd (lexWith_eq_nil others '-' hyphen) (by decide)

end Json.Token

theorem Json.ofText?_id (id : RecordId) : Json.ofText? id.text = none := by
  obtain ⟨first, rest, _, shape, _, front, _⟩ := id.chars_ends
  have lower := id.chars_lower
  have hyphens : 4 ≤ id.chars.count '-' := by
    simp only [RecordId.chars, RecordId.groups, RecordId.hyphenate, List.count_append,
      List.count_cons_self]
    omega
  rw [shape] at lower hyphens
  have digit : first ∈ lowerDigits := Text.Hex.encode_lower _ _ front
  have others : ∀ d ∈ rest, d = '-' ∨ d ∈ lowerDigits := (List.forall_mem_cons.mp lower).2
  have behind : 2 ≤ rest.count '-' := by
    have one := List.count_cons (a := '-') (b := first) (l := rest)
    split at one <;> omega
  have unread : Form.ofText? id.chars = none := by
    rw [shape, Form.ofText?]
    cases lexed : Token.lex (first :: rest) with
    | none => rfl
    | some tokens =>
      obtain ⟨n, ts, rfl, more⟩ := Token.lex_lowerDigit digit others behind lexed
      obtain ⟨t, ts, rfl⟩ := List.exists_cons_of_ne_nil more
      rfl
  rw [Json.ofText?, RecordId.text, String.toList_ofList, unread, Option.bind_none]

namespace Command

/-- An id is an argument of text, which selects the rows that hold the id. Of JSON values, all but
floating-point numbers are arguments as they are written. -/
theorem argumentValue_written :
    (∀ id : RecordId, argumentValue id.text = .string id.text ∧
      ∃ x, Store.bound (argumentValue id.text) = .ok x ∧
        ∀ r : Store.VersionRow, (Query.Expr.compare .eq (.column ⟨1, .text⟩) (.parameter 1) :
          Query.Term).selects [x] r.values = true ↔ r.id = id.text) ∧
    ∀ v : Json, Json.Regular Json.maxDepth v → Json.Integral v →
      argumentValue v.compact = v := by
  refine ⟨fun id => ?_, fun v regular whole => ?_⟩
  · have kept : argumentValue id.text = .string id.text := by
      rw [argumentValue, Json.ofText?_id, Option.getD_none]
    refine ⟨kept, .text id.text, by rw [kept, Store.bound], fun r => ?_⟩
    rw [Store.selects_eq_text, beq_iff_eq]
  · rw [argumentValue, Json.ofText?_compact_integral regular whole, Option.getD_some]

theorem argumentValue_written_1234567e :
    argumentValue "1234567e-1234-7000-8000-000000000001" =
        .string "1234567e-1234-7000-8000-000000000001" ∧
      argumentValue "\x7b\"a\":[18446744073709551615,-9223372036854775808],\"b\":null\x7d" =
        .object [("a", .array [.int 18446744073709551615, .int (-9223372036854775808)]),
          ("b", .null)] := by
  let id : RecordId :=
    ⟨[0x12, 0x34, 0x56, 0x7e, 0x12, 0x34, 0x70, 0, 0x80, 0, 0, 0, 0, 0, 0, 1], rfl⟩
  let v : Json := .object [("a", .array [.int 18446744073709551615, .int (-9223372036854775808)]),
    ("b", .null)]
  have text : id.text = "1234567e-1234-7000-8000-000000000001" := by decide +kernel
  have compact : v.compact =
      "\x7b\"a\":[18446744073709551615,-9223372036854775808],\"b\":null\x7d" := by decide +kernel
  have ordered : "a" < "b" := by decide
  have greatest : Json.Numeral.Fits 18446744073709551615 := ⟨by decide, by decide⟩
  have least : Json.Numeral.Fits (-9223372036854775808) := ⟨by decide, by decide⟩
  have regular : Json.Regular Json.maxDepth v :=
    ⟨List.pairwise_pair.mpr ordered, ⟨greatest, least, trivial⟩, trivial, trivial⟩
  have whole : Json.Integral v := ⟨⟨trivial, trivial, trivial⟩, trivial, trivial⟩
  rw [← text, ← compact]
  exact ⟨(argumentValue_written.1 id).1, argumentValue_written.2 v regular whole⟩

end Command
end RecordLedger
