import Mathlib.Data.List.TakeDrop
import RecordLedger.Query.Plan

/-! How statements open. The shape of a text is judged after its layout and letter case are taken
away, a statement is read from tokens; both agree on a text that opens with the word `select`, so
such a text reads as a selection or not at all. -/
namespace RecordLedger.Query

theorem words_cons (c : Char) (cs : List Char) :
    Text.words (c :: cs) =
      if Text.isBlank c then Text.words cs
      else
        match cs with
        | [] => [[c]]
        | d :: _ =>
          if Text.isBlank d then [c] :: Text.words cs
          else
            match Text.words cs with
            | [] => [[c]]
            | w :: ws => (c :: w) :: ws :=
  rfl

theorem words_of_blank {c : Char} (blank : Text.isBlank c = true) (cs : List Char) :
    Text.words (c :: cs) = Text.words cs := by
  rw [words_cons, if_pos blank]

theorem words_of_letter {c : Char} (letter : Text.isBlank c = false) (cs : List Char) :
    ∃ w ws, Text.words (c :: cs) = (c :: w) :: ws := by
  rw [words_cons, letter, if_neg Bool.false_ne_true]
  cases cs with
  | nil => exact ⟨[], [], rfl⟩
  | cons d ds =>
    dsimp only
    split
    · exact ⟨_, _, rfl⟩
    · split <;> exact ⟨_, _, rfl⟩

theorem joined_letter (c : Char) (w : List Char) (ws : List (List Char)) :
    ∃ rest, joined ((c :: w) :: ws) = c :: rest := by
  cases ws <;> exact ⟨_, rfl⟩

theorem closeBeforeCommas_letter {c : Char} (letter : c ≠ ' ') (cs : List Char) :
    closeBeforeCommas (c :: cs) = c :: closeBeforeCommas cs := by
  rw [closeBeforeCommas]
  rintro _ rfl
  exact absurd rfl letter

theorem closeAfterCommas_letter (c : Char) (cs : List Char) :
    ∃ rest, closeAfterCommas (c :: cs) = c :: rest := by
  unfold closeAfterCommas
  split
  · next same => cases same
  · next same => cases same; exact ⟨_, rfl⟩
  · next same => cases same; exact ⟨_, rfl⟩

theorem toLower_ne_space {c : Char} (letter : Text.isBlank c = false) : c.toLower ≠ ' ' := by
  unfold Char.toLower
  split
  · next upper =>
    intro same
    have value : (c.val + ('a'.val - 'A'.val)).toNat = 32 := congrArg (fun d => d.val.toNat) same
    have lower := UInt32.le_iff_toNat_le.mp upper.1
    have upper := UInt32.le_iff_toNat_le.mp upper.2
    rw [UInt32.toNat_add] at value
    have : 'A'.val.toNat = 65 := rfl
    have : 'Z'.val.toNat = 90 := rfl
    have : ('a'.val - 'A'.val).toNat = 32 := rfl
    omega
  · rintro rfl
    cases letter

/-- Taking the layout away leaves the first letter, in lower case. -/
theorem normalize_opening {cs rest : List Char} {c : Char} (shape : normalize cs = c :: rest) :
    ∃ d ds, cs.dropWhile Text.isBlank = d :: ds ∧ d.toLower = c := by
  induction cs with
  | nil => cases shape
  | cons b cs ih =>
    by_cases blank : Text.isBlank b = true
    · rw [normalize, words_of_blank blank, ← normalize] at shape
      rw [List.dropWhile_cons_of_pos blank]
      exact ih shape
    · have letter := Bool.eq_false_iff.mpr blank
      obtain ⟨w, ws, first⟩ := words_of_letter letter cs
      obtain ⟨_, join⟩ := joined_letter b w ws
      rw [normalize, first, join, List.map_cons,
        closeBeforeCommas_letter (toLower_ne_space letter)] at shape
      obtain ⟨_, close⟩ :=
        closeAfterCommas_letter b.toLower (closeBeforeCommas (List.map Char.toLower _))
      rw [close] at shape
      exact ⟨b, cs, List.dropWhile_cons_of_neg blank, (List.cons.inj shape).1⟩

namespace Token

/-- The words that a statement opens with if it can change anything. -/
def openers : List String := ["with", "insert", "replace", "update", "delete"]

def Harmless (tokens : List Token) : Prop := ∃ w rest, tokens = .word w :: rest ∧ w ∉ openers

theorem not_mem_openers {w : String} {c : Char} (head : w.toList.head? = some c)
    (other : c = 's' ∨ 127 < c.toNat) : w ∉ openers := by
  intro member
  simp only [openers, List.mem_cons, List.not_mem_nil, or_false] at member
  rcases member with rfl | rfl | rfl | rfl | rfl <;> cases head <;> exact absurd other (by decide)

/-- White space that separates no tokens. -/
theorem blank_cases {c : Char} (blank : Text.isBlank c = true) (other : isSpace c = false) :
    c = '\x0b' ∨ 127 < c.toNat := by
  by_cases ascii : 127 < c.toNat
  · exact .inr ascii
  · left
    have code : (9 ≤ c.toNat ∧ c.toNat ≤ 13) ∨ c.toNat = 32 := by
      simp only [Text.isBlank, Bool.or_eq_true, Bool.and_eq_true, decide_eq_true_eq, beq_iff_eq]
        at blank
      omega
    have char : c = Char.ofNat c.toNat := (Char.ofNat_toNat c).symm
    generalize c.toNat = n at code char
    obtain ⟨low, high⟩ | rfl := code
    · obtain rfl | rfl | rfl | rfl | rfl : n = 9 ∨ n = 10 ∨ n = 11 ∨ n = 12 ∨ n = 13 := by omega
      all_goals subst char
      all_goals first | rfl | cases other
    · subst char
      cases other

theorem lexWith_letter {c : Char} (fuel : Nat) (cs : List Char)
    (plain : c ≠ '\x00' ∧ c ≠ ';' ∧ c ≠ '-' ∧ c ≠ '/') :
    lexWith (fuel + 1) (c :: cs) =
      if isSpace c then lexWith fuel cs
      else
        match next? c cs with
        | none => none
        | some (token, rest) => (lexWith fuel rest).map (token :: ·) := by
  obtain ⟨nul, semicolon, minus, slash⟩ := plain
  rw [lexWith] <;> grind

theorem next?_of_startsName {c : Char} (name : startsName c = true) (cs : List Char) :
    ∃ w rest, next? c cs = some (.word w, rest) ∧ w.toList.head? = some c.toLower := by
  have quote : c ≠ '\'' := by rintro rfl; cases name
  have quotes : c ≠ '"' := by rintro rfl; cases name
  have mark : c ≠ '?' := by rintro rfl; cases name
  have sign : ¬ (c == ':' || c == '@' || c == '$' || c == '#') = true := by
    simp only [Bool.or_eq_true, beq_iff_eq]
    rintro (((rfl | rfl) | rfl) | rfl) <;> cases name
  have letter : isNameChar c = true := by
    rw [startsName, Bool.and_eq_true, Bool.and_eq_true] at name
    exact name.1.1
  refine ⟨String.ofList (((c :: cs).takeWhile isNameChar).map Char.toLower),
    (c :: cs).dropWhile isNameChar, ?_, ?_⟩
  · rw [next?, if_neg (by simpa using quote), if_neg (by simpa using quotes),
      if_neg (by simpa using mark), if_neg sign, if_pos name, List.span_eq_takeWhile_dropWhile]
  · rw [String.toList_ofList, List.takeWhile_cons_of_pos letter]
    rfl

theorem startsName_of_large {c : Char} (large : 127 < c.toNat) : startsName c = true := by
  have digit : c.isDigit = false := by
    rw [Bool.eq_false_iff]
    intro digit
    simp only [Char.isDigit, Bool.and_eq_true, decide_eq_true_eq] at digit
    have : c.toNat ≤ 57 := UInt32.le_iff_toNat_le.mp digit.2
    omega
  have dollar : c ≠ '$' := by rintro rfl; exact absurd large (by decide)
  simp [startsName, isNameChar, large, digit, dollar]

theorem next?_of_tab (cs : List Char) : next? '\x0b' cs = none := by
  cases cs <;> rfl

theorem toLower_of_large {c : Char} (large : 127 < c.toNat) : c.toLower = c := by
  unfold Char.toLower
  rw [dif_neg]
  rintro ⟨-, upper⟩
  have : c.toNat ≤ 90 := UInt32.le_iff_toNat_le.mp upper
  omega

theorem letter_cases {c : Char} (letter : c.toLower = 's') : c = 's' ∨ c = 'S' := by
  unfold Char.toLower at letter
  split at letter
  · next upper =>
    right
    have value : (c.val + ('a'.val - 'A'.val)).toNat = 115 :=
      congrArg (fun d => d.val.toNat) letter
    have high := UInt32.le_iff_toNat_le.mp upper.2
    rw [UInt32.toNat_add] at value
    have : 'Z'.val.toNat = 90 := rfl
    have : ('a'.val - 'A'.val).toNat = 32 := rfl
    exact Char.toNat_inj.mp (show c.val.toNat = 83 by omega)
  · exact .inl letter

/-- A text whose first letter is an `s` opens with a word, and not with one that a change needs. -/
theorem lexWith_harmless {fuel : Nat} {cs ds : List Char} {d : Char} {tokens : List Token}
    (read : lexWith fuel cs = some tokens) (first : cs.dropWhile Text.isBlank = d :: ds)
    (letter : d.toLower = 's') : Harmless tokens := by
  induction fuel generalizing cs with
  | zero => rw [lexWith] at read; cases read
  | succ fuel ih =>
    cases cs with
    | nil => cases first
    | cons c cs =>
      by_cases blank : Text.isBlank c = true
      · rw [List.dropWhile_cons_of_pos blank] at first
        have plain : c ≠ '\x00' ∧ c ≠ ';' ∧ c ≠ '-' ∧ c ≠ '/' := by
          refine ⟨?_, ?_, ?_, ?_⟩ <;> rintro rfl <;> cases blank
        rw [lexWith_letter fuel cs plain] at read
        split at read
        · exact ih read first
        · next other =>
          obtain rfl | large := blank_cases blank (Bool.eq_false_iff.mpr other)
          · rw [next?_of_tab] at read
            cases read
          · obtain ⟨w, rest, next, head⟩ := next?_of_startsName (startsName_of_large large) cs
            rw [next] at read
            obtain ⟨more, -, rfl⟩ := Option.map_eq_some_iff.mp read
            rw [toLower_of_large large] at head
            exact ⟨w, more, rfl, not_mem_openers head (.inr large)⟩
      · rw [List.dropWhile_cons_of_neg blank] at first
        obtain ⟨rfl, rfl⟩ := List.cons.inj first
        have shapes := letter_cases letter
        have name : startsName c = true := by obtain rfl | rfl := shapes <;> rfl
        have space : ¬ isSpace c = true := by obtain rfl | rfl := shapes <;> decide
        rw [lexWith_letter fuel cs (by obtain rfl | rfl := shapes <;> decide), if_neg space] at read
        obtain ⟨w, rest, next, head⟩ := next?_of_startsName name cs
        rw [next] at read
        obtain ⟨more, -, rfl⟩ := Option.map_eq_some_iff.mp read
        rw [letter] at head
        exact ⟨w, more, rfl, not_mem_openers head (.inl rfl)⟩

end Token

namespace Token.Harmless

variable {tokens : List Token}

theorem head_ne {s : String} (harmless : Harmless tokens) (opener : s ∈ openers) :
    tokens.head? ≠ some (.word s) := by
  obtain ⟨w, rest, rfl, other⟩ := harmless
  rintro ⟨⟩
  exact other opener

end Token.Harmless

namespace Reader

theorem run_accept (t : Token) (r : Reading) :
    (accept t).run r =
      some (if r.tokens.head? = some t then (true, { r with tokens := r.tokens.drop 1 })
        else (false, r)) := by
  simp only [accept, peek, skip]
  split <;> simp_all

theorem run_accept_of_ne {t : Token} {r : Reading} (other : r.tokens.head? ≠ some t) :
    (accept t).run r = some (false, r) := by
  rw [run_accept, if_neg other]

theorem run_expect_of_ne {t : Token} {r : Reading} (other : r.tokens.head? ≠ some t) :
    (expect t).run r = none := by
  rw [expect, StateT.run_bind, run_accept_of_ne other]
  rfl

theorem run_after_refused {w : String} {p : Reader α} {r : Reading}
    (other : r.tokens.head? ≠ some (.word w)) : (after w p).run r = some (none, r) := by
  simp [after, acceptWord, run_accept_of_ne other]

theorem run_verb_harmless {r r' : Reading} {v : Verb} (harmless : Token.Harmless r.tokens)
    (read : verb.run r = some (v, r')) : ∃ selection, v = .select selection := by
  rw [verb, acceptWord, StateT.run_bind, run_accept] at read
  split at read
  · simp only [Option.bind_eq_bind, Option.bind_some, if_true, StateT.run_bind,
      Option.bind_eq_some_iff] at read
    obtain ⟨⟨selection, after⟩, -, same⟩ := read
    cases same
    exact ⟨selection, rfl⟩
  · have refused (w : String) (opener : w ∈ Token.openers) :
        (acceptWord w).run r = some (false, r) :=
      run_accept_of_ne (harmless.head_ne opener)
    have unexpected : (expectWord "delete").run r = none :=
      run_expect_of_ne (harmless.head_ne (by decide))
    simp [refused "insert" (by decide), refused "replace" (by decide),
      refused "update" (by decide), unexpected] at read

/-- A statement whose tokens open harmlessly selects from the relations themselves. -/
theorem run_statement_harmless {r r' : Reading} {st : Statement}
    (harmless : Token.Harmless r.tokens) (read : statement.run r = some (st, r')) :
    st.tables = [] ∧ ∃ selection, st.verb = .select selection := by
  rw [statement, StateT.run_bind, run_after_refused (harmless.head_ne (by decide))] at read
  simp only [Option.bind_eq_bind, Option.bind_some, StateT.run_bind, Option.bind_eq_some_iff]
    at read
  obtain ⟨⟨v, after⟩, verb, ⟨r'', again⟩, got, ends⟩ := read
  cases got
  split at ends
  · cases ends
    exact ⟨rfl, run_verb_harmless harmless verb⟩
  · cases ends

end Reader

def Statement.selects (st : Statement) : Prop :=
  st.tables = [] ∧ ∃ selection, st.verb = .select selection

/-- An accepted text reads as a plain selection, or it opens with the word `with`. -/
theorem Statement.selects_or_with {sql : String} {st : Statement} (accepted : violation? sql = none)
    (read : ofText? sql = some st) :
    st.selects ∨ startsWith "with" (normalize sql.toList) = true := by
  by_cases opening : startsWith "with" (normalize sql.toList) = true
  · exact .inr opening
  · left
    have shape : startsWith "select" (normalize sql.toList) = true := by
      by_contra other
      rw [violation?] at accepted
      split at accepted
      · cases accepted
      · rw [if_pos (by simp [other, opening])] at accepted
        cases accepted
    obtain ⟨rest, after, -⟩ := (Option.any_eq_true _ _).mp shape
    obtain ⟨d, ds, first, letter⟩ := normalize_opening (Text.after?_eq_some_iff.mp after)
    simp only [ofText?, Option.bind_eq_bind, Option.bind_eq_some_iff, Option.map_eq_some_iff]
      at read
    obtain ⟨tokens, lexed, ⟨st, r⟩, ran, rfl⟩ := read
    have harmless : Token.Harmless tokens := Token.lexWith_harmless lexed first letter
    exact Reader.run_statement_harmless harmless ran

end RecordLedger.Query
