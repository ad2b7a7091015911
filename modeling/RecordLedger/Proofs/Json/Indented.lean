import RecordLedger.Proofs.Json.RoundTrip

/-! Indented text, read back. Blanks may stand in front of every token and at the end, so the lines
and their indentation are the blanks of the same tokens that the compact text has side by side. -/
namespace RecordLedger.Json

namespace Token

/-- A text of tokens, with any blanks around them. What follows a number must not go on with it. -/
inductive Spaced : List Token → List Char → Prop
  | done {blanks : List Char} (blank : ∀ c ∈ blanks, isSpace c = true) : Spaced [] blanks
  | token {blanks : List Char} {t : Token} {ts : List Token} {cs : List Char}
      (blank : ∀ c ∈ blanks, isSpace c = true) (ends : t.IsNumber → Numeral.Ends cs)
      (rest : Spaced ts cs) : Spaced (t :: ts) (blanks ++ (t.spelling ++ cs))

variable {t : Token} {ts : List Token} {blanks cs : List Char}

theorem Spaced.behind (spaced : Spaced ts cs) (blank : ∀ c ∈ blanks, isSpace c = true) :
    Spaced ts (blanks ++ cs) := by
  cases spaced with
  | done other => exact .done (List.forall_mem_append.mpr ⟨blank, other⟩)
  | token other ends rest =>
    rw [← List.append_assoc]
    exact .token (List.forall_mem_append.mpr ⟨blank, other⟩) ends rest

/-- A token in front that is no number. -/
theorem Spaced.cons (spaced : Spaced ts cs) (other : ¬ t.IsNumber) :
    Spaced (t :: ts) (t.spelling ++ cs) :=
  @Spaced.token [] _ _ _ (fun _ member => absurd member List.not_mem_nil)
    (fun number => absurd number other) spaced

theorem Spaced.number (spaced : Spaced ts cs) (ends : Numeral.Ends cs) :
    Spaced (t :: ts) (t.spelling ++ cs) :=
  @Spaced.token [] _ _ _ (fun _ member => absurd member List.not_mem_nil) (fun _ => ends) spaced

theorem dropWhile_blanks (blank : ∀ c ∈ blanks, isSpace c = true) (cs : List Char) :
    (blanks ++ cs).dropWhile isSpace = cs.dropWhile isSpace := by
  induction blanks with
  | nil => rfl
  | cons c rest ih =>
    obtain ⟨first, others⟩ := List.forall_mem_cons.mp blank
    rw [List.cons_append, List.dropWhile_cons_of_pos first, ih others]

theorem lexWith_spaced (spaced : Spaced ts cs) (written : ∀ t ∈ ts, t.Written) {fuel : Nat}
    (enough : cs.length < fuel) : lexWith fuel cs = some ts := by
  induction spaced generalizing fuel with
  | @done blanks blank =>
    obtain ⟨fuel, rfl⟩ := Nat.exists_eq_succ_of_ne_zero (Nat.ne_of_gt (Nat.zero_lt_of_lt enough))
    have nothing := dropWhile_blanks blank []
    rw [List.append_nil] at nothing
    rw [lexWith, nothing]
    rfl
  | @token blanks t ts cs blank ends rest ih =>
    obtain ⟨first, written⟩ := List.forall_mem_cons.mp written
    obtain ⟨fuel, rfl⟩ := Nat.exists_eq_succ_of_ne_zero (Nat.ne_of_gt (Nat.zero_lt_of_lt enough))
    obtain ⟨c, tail, shape, solid⟩ := spelling_head first
    have taken := next?_spelling first ends
    rw [List.length_append, List.length_append, shape, List.length_cons] at enough
    have others : lexWith fuel cs = some ts := ih written (by omega)
    rw [shape, List.cons_append] at taken
    rw [lexWith, dropWhile_blanks blank, shape, List.cons_append,
      List.dropWhile_cons_of_neg (by simp [solid])]
    simp only [taken, others, Option.map_some]

theorem lex_spaced (spaced : Spaced ts cs) (written : ∀ t ∈ ts, t.Written) :
    lex cs = some ts := lexWith_spaced spaced written (Nat.lt_succ_self _)

end Token

namespace Form

open Token (Spaced)

theorem newLine_blank (depth : Nat) : ∀ c ∈ newLine depth, Token.isSpace c = true := by
  refine List.forall_mem_cons.mpr ⟨rfl, fun c member => ?_⟩
  rw [List.eq_of_mem_replicate member]
  rfl

theorem newLine_ends (depth : Nat) (cs : List Char) : Numeral.Ends (newLine depth ++ cs) := by
  rintro c ⟨⟩
  decide

theorem comma_ends (cs : List Char) : Numeral.Ends (',' :: cs) := by
  rintro c ⟨⟩
  decide

theorem blank_space : ∀ c ∈ [' '], Token.isSpace c = true := by
  rintro c member
  rw [List.mem_singleton.mp member]
  rfl

mutual

theorem pretty_spaced (f : Form) (depth : Nat) {ts : List Token} {cs : List Char}
    (rest : Spaced ts cs) (ends : Numeral.Ends cs) :
    Spaced (f.tokens ++ ts) (f.pretty depth ++ cs) := by
  match f with
  | .null => exact rest.cons (t := .null) id
  | .bool b => exact rest.cons (t := .bool b) id
  | .number n => exact rest.number (t := .number n) ends
  | .string pieces => exact rest.cons (t := .string pieces) id
  | .array [] => exact (rest.cons (t := .endArray) id).cons (t := .beginArray) id
  | .object [] => exact (rest.cons (t := .endObject) id).cons (t := .beginObject) id
  | .array (x :: xs) =>
    have closed := (rest.cons (t := .endArray) id).behind (newLine_blank depth)
    have inside := prettyElements_spaced (x :: xs) (List.cons_ne_nil x xs) (depth + 1) closed
      (newLine_ends depth _)
    have opened := (inside.behind (newLine_blank (depth + 1))).cons (t := .beginArray) id
    simpa [tokens, pretty, Token.spelling] using opened
  | .object (m :: ms) =>
    have closed := (rest.cons (t := .endObject) id).behind (newLine_blank depth)
    have inside := prettyMembers_spaced (m :: ms) (List.cons_ne_nil m ms) (depth + 1) closed
      (newLine_ends depth _)
    have opened := (inside.behind (newLine_blank (depth + 1))).cons (t := .beginObject) id
    simpa [tokens, pretty, Token.spelling] using opened

theorem prettyElements_spaced (xs : List Form) (filled : xs ≠ []) (depth : Nat) {ts : List Token}
    {cs : List Char} (rest : Spaced (.endArray :: ts) cs) (ends : Numeral.Ends cs) :
    Spaced (elementTokens xs ++ ts) (prettyElements depth xs ++ cs) := by
  match xs with
  | [] => exact absurd rfl filled
  | [x] =>
    have last := pretty_spaced x depth rest ends
    simpa [elementTokens_one, prettyElements] using last
  | x :: y :: ys =>
    have others := prettyElements_spaced (y :: ys) (List.cons_ne_nil y ys) depth rest ends
    have next := (others.behind (newLine_blank depth)).cons (t := .comma) id
    have first := pretty_spaced x depth next (comma_ends _)
    simpa [elementTokens_more, prettyElements, Token.spelling] using first

theorem prettyMembers_spaced (ms : List (List Piece × Form)) (filled : ms ≠ []) (depth : Nat)
    {ts : List Token} {cs : List Char} (rest : Spaced (.endObject :: ts) cs)
    (ends : Numeral.Ends cs) : Spaced (memberTokens ms ++ ts) (prettyMembers depth ms ++ cs) := by
  match ms with
  | [] => exact absurd rfl filled
  | [(key, x)] =>
    have last := (pretty_spaced x depth rest ends).behind blank_space
    have named := (last.cons (t := .colon) id).cons (t := .string key) id
    simpa [memberTokens_one, prettyMembers, Token.spelling] using named
  | (key, x) :: m :: ms =>
    have others := prettyMembers_spaced (m :: ms) (List.cons_ne_nil m ms) depth rest ends
    have next := (others.behind (newLine_blank depth)).cons (t := .comma) id
    have first := (pretty_spaced x depth next (comma_ends _)).behind blank_space
    have named := (first.cons (t := .colon) id).cons (t := .string key) id
    simpa [memberTokens_more, prettyMembers, Token.spelling] using named

end

/-- The indented text of a form, with blanks behind it, reads back as the form. -/
theorem ofText?_pretty (f : Form) (written : ∀ t ∈ f.tokens, t.Written) {blanks : List Char}
    (blank : ∀ c ∈ blanks, Token.isSpace c = true) (ends : Numeral.Ends blanks) :
    ofText? (f.pretty 0 ++ blanks) = some f := by
  have spaced := f.pretty_spaced 0 (.done blank) ends
  rw [List.append_nil] at spaced
  have read := (read_tokens (2 * f.tokens.length + 1)).1 f [] (by omega)
  rw [List.append_nil] at read
  rw [ofText?, Token.lex_spaced spaced written]
  simp only [read]

end Form

/-- The indented text of any value, in a line of its own, has the value's form. -/
theorem ofText?_lines (v : Json) : Form.ofText? (v.pretty ++ "\n").toList = some v.form := by
  rw [String.toList_append, pretty, String.toList_ofList]
  exact Form.ofText?_pretty v.form (tokens_written v) (Form.newLine_blank 0)
    (Form.newLine_ends 0 [])

end RecordLedger.Json
