import RecordLedger.Proofs.RecordId

/-! The texts that are read as a cursor: hexadecimal text of the octets of the mark and of any text
that is read as the cursor's id. One of them is written. -/
namespace RecordLedger.Cursor

open Text (Framed)
open Text.Hex (Spells encode lowerDigits)

theorem fromUTF8?_eq_some_iff {octets : List UInt8} {text : String} :
    String.fromUTF8? ⟨octets.toArray⟩ = some text ↔ text.toUTF8.toList = octets := by
  constructor
  · intro read
    unfold String.fromUTF8? at read
    split at read
    · next valid =>
      cases read
      have same : (String.fromUTF8 ⟨octets.toArray⟩ valid).toUTF8.toList = octets :=
        Text.toList_loop _ 0 []
      exact same
    · cases read
  · rintro rfl
    exact Text.fromUTF8?_octets text

/-- A text is read as a cursor exactly if white space frames the hexadecimal text of the mark and of
a text that is read as the cursor's id. -/
theorem parse_eq_ok_iff {t : String} {c : Cursor} :
    Cursor.parse t = .ok c ↔ ∃ cs idText, Framed cs t.toList ∧
      Spells cs (mark ++ idText).toUTF8.toList ∧ RecordId.parse idText = .ok c.id := by
  rw [Cursor.parse, mapError_eq_ok_iff]
  simp only [RecordId.parse, mapError_eq_ok_iff]
  constructor
  · intro read
    unfold Cursor.read at read
    dsimp only at read
    split at read
    · cases read
    next octets decoded =>
    split at read
    · cases read
    next text named =>
    split at read
    · cases read
    next idText behind =>
    split at read
    · next id found =>
      cases read
      have whole : mark ++ String.ofList idText = text := by
        rw [← String.toList_inj, String.toList_append, String.toList_ofList]
        exact (Text.after?_eq_some_iff.mp behind).symm
      refine ⟨_, String.ofList idText, Text.framed_trim _, ?_, found⟩
      rw [whole, fromUTF8?_eq_some_iff.mp named]
      exact Text.Hex.decode?_eq_some_iff.mp decoded
    · cases read
  · rintro ⟨cs, idText, framed, spells, found⟩
    have behind : Text.after? mark.toList (mark ++ idText).toList = some idText.toList :=
      Text.after?_eq_some_iff.mpr String.toList_append
    simp only [Cursor.read, framed.trim_eq spells.solid, Text.Hex.decode?_eq_some_iff.mpr spells,
      fromUTF8?_eq_some_iff.mpr rfl, behind, String.ofList_toList, found]

theorem token_toList (c : Cursor) :
    c.token.toList = encode (mark ++ c.id.text).toUTF8.toList := String.toList_ofList

theorem token_inj {c d : Cursor} : c.token = d.token ↔ c.id = d.id := by
  constructor
  · intro same
    have read := parse_token c
    rw [same, parse_token d] at read
    cases read
    rfl
  · intro same
    rw [token, token, same]

/-- The texts that are read as a cursor, with white space around them or not, are the hexadecimal
texts of the mark and of a text that is read as its id; all others are refused as no cursor. One of
them is the token, the lower-case one of the canonical id, which is read back and differs for
different ids. -/
theorem tokens_accepted (t : String) (c d : Cursor) :
    (Cursor.parse t = .ok c ↔ ∃ cs idText, Framed cs t.toList ∧
      Spells cs ("cursor:" ++ idText).toUTF8.toList ∧ RecordId.parse idText = .ok c.id) ∧
    ((∃ e, Cursor.parse t = .ok e) ∨ ∃ fault, Cursor.parse t = .error (.cursor fault)) ∧
    Cursor.parse c.token = .ok c ∧
    (t = c.token ↔ Spells t.toList ("cursor:" ++ c.id.text).toUTF8.toList ∧
      ∀ x ∈ t.toList, x ∈ lowerDigits) ∧
    (c.token = d.token ↔ c.id = d.id) := by
  refine ⟨parse_eq_ok_iff, ?_, parse_token c, ⟨?_, ?_⟩, token_inj⟩
  · rw [Cursor.parse]
    cases Cursor.read t with
    | ok e => exact .inl ⟨e, rfl⟩
    | error fault => exact .inr ⟨fault, rfl⟩
  · rintro rfl
    rw [token_toList]
    exact ⟨Text.Hex.spells_encode _, Text.Hex.encode_lower _⟩
  · rintro ⟨spells, lower⟩
    rw [← String.toList_inj, token_toList]
    exact spells.eq_encode lower

end RecordLedger.Cursor
