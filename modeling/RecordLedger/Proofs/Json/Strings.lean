import RecordLedger.Json.Strings
import RecordLedger.Proofs.Spelling

/-! Strings of JSON text, read back from their spelling. -/
namespace RecordLedger.Json.Piece

theorem unit?_digits {n : Nat} (small : n < 65536) :
    Token.unit? (Text.Hex.digitChar (n / 4096)) (Text.Hex.digitChar (n / 256 % 16))
      (Text.Hex.digitChar (n / 16 % 16)) (Text.Hex.digitChar (n % 16)) = some n := by
  have digit (d : Nat) (bound : d < 16) := Text.Hex.digit?_digitChar d bound
  simp only [Token.unit?, digit (n / 4096) (by omega), digit (n / 256 % 16) (by omega),
    digit (n / 16 % 16) (by omega), digit (n % 16) (by omega), Option.bind_eq_bind,
    Option.bind_some, Text.Numeral.value, List.foldl_cons, List.foldl_nil]
  exact congrArg some (by omega)

theorem letter?_unescape {c l : Char} (short : letter? c = some l) :
    Token.unescape? l = some c ∧ l ≠ 'u' := by
  unfold letter? at short
  split at short
  · next same => cases short; rw [beq_iff_eq.mp same]; decide
  split at short
  · next same => cases short; rw [beq_iff_eq.mp same]; decide
  split at short
  · next same => cases short; rw [beq_iff_eq.mp same]; decide
  split at short
  · next same => cases short; rw [beq_iff_eq.mp same]; decide
  split at short
  · next same => cases short; rw [beq_iff_eq.mp same]; decide
  · cases short

theorem readString_escape {e c : Char} (known : Token.unescape? e = some c) (other : e ≠ 'u')
    (cs : List Char) : Token.readString ('\\' :: e :: cs) =
      (Token.readString cs).map fun (pieces, rest) => (.char c :: pieces, rest) := by
  rw [Token.readString]
  · rw [known]
    cases Token.readString cs <;> rfl
  · exact fun a b c d rest same => absurd same other

/-- Every written piece is read back, whatever follows it. -/
theorem readString_spelling (c : Char) (cs : List Char) :
    Token.readString ((ofChar c).spelling ++ cs) =
      (Token.readString cs).map fun (pieces, rest) => (ofChar c :: pieces, rest) := by
  unfold ofChar
  split
  · next control =>
    have small : c.toNat < 32 := by simp at control; exact control.1
    simp only [spelling, List.cons_append, List.nil_append, Token.readString,
      unit?_digits (show c.toNat < 65536 by omega)]
    cases Token.readString cs <;> rfl
  · next printable =>
    unfold spelling
    dsimp only
    split
    · next special =>
      have known : Token.unescape? c = some c ∧ c ≠ 'u' := by
        rw [Bool.or_eq_true, beq_iff_eq, beq_iff_eq] at special
        rcases special with rfl | rfl <;> decide
      exact readString_escape known.1 known.2 cs
    · next plain =>
      cases short : letter? c with
      | some l =>
        obtain ⟨known, other⟩ := letter?_unescape short
        exact readString_escape known other cs
      | none =>
        rw [short] at printable
        simp only [Option.isNone_none, Bool.and_true, decide_eq_true_eq] at printable
        simp only [Bool.or_eq_true, beq_iff_eq, not_or] at plain
        dsimp only
        rw [List.cons_append, List.nil_append, Token.readString]
        · rw [if_neg (by simp [printable, plain.2])]
          cases Token.readString cs <;> rfl
        · exact plain.1
        · exact fun a b c d rest same => absurd same plain.2
        · exact fun e rest same => absurd same plain.2

theorem readString_spellings (cs rest : List Char) :
    Token.readString ((cs.map ofChar).flatMap spelling ++ '"' :: rest) =
      some (cs.map ofChar, rest) := by
  induction cs with
  | nil => rfl
  | cons c cs ih =>
    rw [List.map_cons, List.flatMap_cons, List.append_assoc, readString_spelling, ih]
    rfl

theorem text?_ofChar (cs : List Char) : text? (cs.map ofChar) = some cs := by
  induction cs with
  | nil => rfl
  | cons c cs ih =>
    rw [List.map_cons, ofChar]
    split
    · next control =>
      have small : c.toNat < 32 := by simp at control; exact control.1
      have low : isLowSurrogate c.toNat = false := by simp [isLowSurrogate]; omega
      have high : isHighSurrogate c.toNat = false := by simp [isHighSurrogate]; omega
      unfold text?
      simp only [low, high, Bool.false_eq_true, if_false, ih, Option.map_some, Char.ofNat_toNat]
    · rw [text?, ih]
      rfl

theorem string?_ofString (s : String) : string? (ofString s) = some s := by
  rw [string?, ofString, text?_ofChar, Option.map_some, String.ofList_toList]

end RecordLedger.Json.Piece
