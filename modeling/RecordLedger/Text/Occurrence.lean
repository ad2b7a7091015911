/-!
Where one text occurs inside another.
-/

namespace RecordLedger.Text

/-- The rest of a text after `front`, if it starts so. -/
def after? : List Char → List Char → Option (List Char)
  | [], cs => some cs
  | _ :: _, [] => none
  | f :: fs, c :: cs => if f = c then after? fs cs else none

/-- What follows each occurrence of `part`, from the first one on. -/
def followers (part : List Char) : List Char → List (List Char)
  | [] => (after? part []).toList
  | c :: cs => (after? part (c :: cs)).toList ++ followers part cs

theorem after?_eq_some_iff {front cs rest : List Char} :
    after? front cs = some rest ↔ cs = front ++ rest := by
  induction front generalizing cs with
  | nil => simp [after?]
  | cons f fs ih =>
    cases cs with
    | nil => simp [after?]
    | cons c cs =>
      by_cases h : f = c
      · simp [after?, h, ih]
      · simp [after?, h, Ne.symm h]

end RecordLedger.Text
