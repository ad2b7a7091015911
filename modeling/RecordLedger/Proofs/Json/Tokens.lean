import Mathlib.Data.List.Chain
import RecordLedger.Json.Printer
import RecordLedger.Proofs.Json.Numerals
import RecordLedger.Proofs.Json.Strings

/-! Tokens side by side, read back one after the other. Two numbers must not touch; every other
token ends by itself. -/
namespace RecordLedger.Json.Token

def Written : Token → Prop
  | .number n => n.Written
  | .string pieces => ∃ cs : List Char, pieces = cs.map Piece.ofChar
  | _ => True

def IsNumber : Token → Prop
  | .number _ => True
  | _ => False

def Apart (a b : Token) : Prop := a.IsNumber → ¬ b.IsNumber

theorem next?_spelling {t : Token} (written : t.Written) {cs : List Char}
    (ends : t.IsNumber → Numeral.Ends cs) : next? (t.spelling ++ cs) = some (t, cs) := by
  cases t with
  | number n => exact Numeral.next?_text written (ends trivial)
  | string pieces =>
    obtain ⟨text, rfl⟩ := written
    have read := Piece.readString_spellings text cs
    simp only [spelling, List.cons_append, List.append_assoc, List.nil_append, next?, read,
      Option.map_some]
  | bool b => cases b <;> rfl
  | _ => rfl

theorem spelling_head {t : Token} (written : t.Written) :
    ∃ c rest, t.spelling = c :: rest ∧ isSpace c = false := by
  cases t with
  | number n => exact Numeral.text_head written
  | bool b => cases b <;> exact ⟨_, _, rfl, rfl⟩
  | _ => exact ⟨_, _, rfl, rfl⟩

theorem spelling_ends {t : Token} (other : ¬ t.IsNumber) (cs : List Char) :
    Numeral.Ends (t.spelling ++ cs) := by
  intro c head
  cases t with
  | number n => exact absurd trivial other
  | bool b => cases b <;> cases head <;> decide
  | _ => cases head; decide

theorem lexWith_spelling {ts : List Token} (written : ∀ t ∈ ts, t.Written)
    (apart : ts.IsChain Apart) {fuel : Nat} (enough : (ts.flatMap spelling).length < fuel) :
    lexWith fuel (ts.flatMap spelling) = some ts := by
  induction ts generalizing fuel with
  | nil =>
    obtain ⟨fuel, rfl⟩ := Nat.exists_eq_succ_of_ne_zero (Nat.ne_of_gt enough)
    rfl
  | cons t ts ih =>
    obtain ⟨first, written⟩ := List.forall_mem_cons.mp written
    obtain ⟨fuel, rfl⟩ := Nat.exists_eq_succ_of_ne_zero (Nat.ne_of_gt (Nat.zero_lt_of_lt enough))
    obtain ⟨c, rest, shape, solid⟩ := spelling_head first
    have ends : t.IsNumber → Numeral.Ends (ts.flatMap spelling) := by
      intro number
      cases ts with
      | nil => exact fun c head => absurd head (by simp)
      | cons next ts => exact spelling_ends ((List.isChain_cons_cons.mp apart).1 number) _
    have taken := next?_spelling first ends
    rw [List.flatMap_cons, List.length_append, shape, List.length_cons] at enough
    have others : lexWith fuel (ts.flatMap spelling) = some ts :=
      ih written apart.tail (by omega)
    rw [shape, List.cons_append] at taken
    rw [List.flatMap_cons, shape, List.cons_append, lexWith,
      List.dropWhile_cons_of_neg (by simp [solid])]
    simp only [taken, others, Option.map_some]

theorem lex_spelling {ts : List Token} (written : ∀ t ∈ ts, t.Written)
    (apart : ts.IsChain Apart) : lex (ts.flatMap spelling) = some ts :=
  lexWith_spelling written apart (Nat.lt_succ_self _)

end RecordLedger.Json.Token
