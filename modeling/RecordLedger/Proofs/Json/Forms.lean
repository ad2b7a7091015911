import RecordLedger.Proofs.Json.Tokens

/-! Written forms, read back from their compact text. -/
namespace RecordLedger.Json.Form

/-- A form begins with a token of its own, which closes nothing. -/
theorem tokens_head (f : Form) : ∃ t ts, f.tokens = t :: ts ∧ t ≠ .endArray ∧ t ≠ .endObject := by
  cases f <;> simp [tokens]

theorem elementTokens_one (x : Form) : elementTokens [x] = x.tokens ++ [.endArray] := rfl

theorem elementTokens_more (x y : Form) (ys : List Form) :
    elementTokens (x :: y :: ys) = x.tokens ++ .comma :: elementTokens (y :: ys) := rfl

theorem memberTokens_one (key : List Piece) (x : Form) :
    memberTokens [(key, x)] = .string key :: .colon :: (x.tokens ++ [.endObject]) := rfl

theorem memberTokens_more (key : List Piece) (x : Form) (m : List Piece × Form)
    (ms : List (List Piece × Form)) : memberTokens ((key, x) :: m :: ms) =
      .string key :: .colon :: (x.tokens ++ .comma :: memberTokens (m :: ms)) := rfl

theorem elementTokens_head (x : Form) (xs : List Form) :
    ∃ t ts, elementTokens (x :: xs) = t :: ts ∧ t ≠ .endArray := by
  obtain ⟨t, ts, shape, other, _⟩ := x.tokens_head
  cases xs with
  | nil => exact ⟨t, _, by rw [elementTokens_one, shape, List.cons_append], other⟩
  | cons y ys => exact ⟨t, _, by rw [elementTokens_more, shape, List.cons_append], other⟩

theorem memberTokens_head (m : List Piece × Form) (ms : List (List Piece × Form)) :
    ∃ t ts, memberTokens (m :: ms) = t :: ts ∧ t ≠ .endObject := by
  cases ms <;> exact ⟨.string m.1, _, rfl, by simp⟩

theorem tokens_positive (f : Form) : 0 < f.tokens.length := by
  obtain ⟨t, ts, shape, _⟩ := f.tokens_head
  rw [shape]
  exact Nat.zero_lt_succ _

mutual

/-- Whatever may follow a number may follow a form. -/
theorem tokens_apart (f : Form) {ts : List Token} (ends : ∀ t ∈ ts.head?, ¬ t.IsNumber)
    (apart : ts.IsChain Token.Apart) : (f.tokens ++ ts).IsChain Token.Apart := by
  match f with
  | .null | .bool _ | .string _ => exact apart.cons fun _ _ number => number.elim
  | .number n => exact apart.cons fun t head _ => ends t head
  | .array xs => exact (elementTokens_apart xs apart).cons fun _ _ number => number.elim
  | .object ms => exact (memberTokens_apart ms apart).cons fun _ _ number => number.elim

theorem elementTokens_apart (xs : List Form) {ts : List Token} (apart : ts.IsChain Token.Apart) :
    (elementTokens xs ++ ts).IsChain Token.Apart := by
  match xs with
  | [] => exact apart.cons fun _ _ number => number.elim
  | [x] =>
    rw [elementTokens_one, List.append_assoc]
    exact tokens_apart x (by rintro t ⟨⟩ ⟨⟩) (apart.cons fun _ _ number => number.elim)
  | x :: y :: ys =>
    rw [elementTokens_more, List.append_assoc]
    exact tokens_apart x (by rintro t ⟨⟩ ⟨⟩)
      ((elementTokens_apart (y :: ys) apart).cons fun _ _ number => number.elim)

theorem memberTokens_apart (ms : List (List Piece × Form)) {ts : List Token}
    (apart : ts.IsChain Token.Apart) : (memberTokens ms ++ ts).IsChain Token.Apart := by
  match ms with
  | [] => exact apart.cons fun _ _ number => number.elim
  | [(key, x)] =>
    rw [memberTokens_one, List.cons_append, List.cons_append, List.append_assoc]
    refine List.IsChain.cons (List.IsChain.cons ?_ fun _ _ number => number.elim)
      fun _ _ number => number.elim
    exact tokens_apart x (by rintro t ⟨⟩ ⟨⟩) (apart.cons fun _ _ number => number.elim)
  | (key, x) :: m :: ms =>
    rw [memberTokens_more, List.cons_append, List.cons_append, List.append_assoc]
    refine List.IsChain.cons (List.IsChain.cons ?_ fun _ _ number => number.elim)
      fun _ _ number => number.elim
    exact tokens_apart x (by rintro t ⟨⟩ ⟨⟩)
      ((memberTokens_apart (m :: ms) apart).cons fun _ _ number => number.elim)

end

/-- A form takes at most two steps for each of its tokens. The induction is on the steps, for forms
and for lists of elements and members at once. -/
theorem read_tokens (fuel : Nat) :
    (∀ (f : Form) (rest : List Token), 2 * f.tokens.length ≤ fuel + 1 →
      readValue fuel (f.tokens ++ rest) = some (f, rest)) ∧
    (∀ (x : Form) (xs : List Form) (rest : List Token),
      2 * (elementTokens (x :: xs)).length ≤ fuel + 1 →
      readElements fuel (elementTokens (x :: xs) ++ rest) = some (x :: xs, rest)) ∧
    (∀ (m : List Piece × Form) (ms : List (List Piece × Form)) (rest : List Token),
      2 * (memberTokens (m :: ms)).length ≤ fuel + 1 →
      readMembers fuel (memberTokens (m :: ms) ++ rest) = some (m :: ms, rest)) := by
  induction fuel with
  | zero =>
    refine ⟨fun f rest enough => ?_, fun x xs rest enough => ?_, fun m ms rest enough => ?_⟩
    · have := f.tokens_positive
      omega
    · obtain ⟨t, ts, shape, _⟩ := elementTokens_head x xs
      rw [shape, List.length_cons] at enough
      omega
    · obtain ⟨t, ts, shape, _⟩ := memberTokens_head m ms
      rw [shape, List.length_cons] at enough
      omega
  | succ fuel ih =>
    obtain ⟨value, elements, members⟩ := ih
    refine ⟨fun f rest enough => ?_, fun x xs rest enough => ?_, fun m ms rest enough => ?_⟩
    · cases f with
      | null | bool | number | string => rfl
      | array xs =>
        cases xs with
        | nil => rfl
        | cons x xs =>
          rw [tokens, List.length_cons] at enough
          have read := elements x xs rest (by omega)
          obtain ⟨t, ts, shape, other⟩ := elementTokens_head x xs
          rw [tokens, List.cons_append]
          rw [shape, List.cons_append] at read ⊢
          rw [readValue, read]
          · rfl
          · exact fun rest same => other (List.cons.inj same).1
      | object ms =>
        cases ms with
        | nil => rfl
        | cons m ms =>
          rw [tokens, List.length_cons] at enough
          have read := members m ms rest (by omega)
          obtain ⟨t, ts, shape, other⟩ := memberTokens_head m ms
          rw [tokens, List.cons_append]
          rw [shape, List.cons_append] at read ⊢
          rw [readValue, read]
          · rfl
          · exact fun rest same => other (List.cons.inj same).1
    · have positive := x.tokens_positive
      cases xs with
      | nil =>
        rw [elementTokens_one, List.length_append, List.length_singleton] at enough
        rw [elementTokens_one, List.append_assoc, readElements, value x _ (by omega)]
        rfl
      | cons y ys =>
        rw [elementTokens_more, List.length_append, List.length_cons] at enough
        rw [elementTokens_more, List.append_assoc, readElements, value x _ (by omega)]
        simp only [List.cons_append, elements y ys rest (by omega), Option.map_some]
    · obtain ⟨key, x⟩ := m
      have positive := x.tokens_positive
      cases ms with
      | nil =>
        rw [memberTokens_one] at enough
        simp only [List.length_cons, List.length_append, List.length_nil] at enough
        rw [memberTokens_one, List.cons_append, List.cons_append, List.append_assoc, readMembers,
          value x _ (by omega)]
        rfl
      | cons n ns =>
        rw [memberTokens_more] at enough
        simp only [List.length_cons, List.length_append] at enough
        rw [memberTokens_more, List.cons_append, List.cons_append, List.append_assoc, readMembers,
          value x _ (by omega)]
        simp only [List.cons_append, members n ns rest (by omega), Option.map_some]

/-- The compact text of a form whose tokens a printer makes reads back as the form. -/
theorem ofText?_compact (f : Form) (written : ∀ t ∈ f.tokens, t.Written) :
    ofText? f.compact = some f := by
  have apart : (f.tokens ++ []).IsChain Token.Apart := f.tokens_apart (by simp) .nil
  rw [List.append_nil] at apart
  have read := (read_tokens (2 * f.tokens.length + 1)).1 f [] (by omega)
  rw [List.append_nil] at read
  rw [ofText?, compact, Token.lex_spelling written apart]
  simp only [read]

end RecordLedger.Json.Form
