import RecordLedger.Text.Blank

/-! Letter case, and white space around a text. Readers of short texts trim them first, so what they
take is a text of letters that white space may frame. -/
namespace RecordLedger.Text

theorem toLower_cases (c : Char) :
    c.toLower = c ∨ (65 ≤ c.toNat ∧ c.toNat ≤ 90) ∧ c.toLower.toNat = c.toNat + 32 := by
  unfold Char.toLower
  split
  · next upper =>
    right
    have low : 65 ≤ c.toNat := UInt32.le_iff_toNat_le.mp upper.1
    have high : c.toNat ≤ 90 := UInt32.le_iff_toNat_le.mp upper.2
    have sum := UInt32.toNat_add c.val ('a'.val - 'A'.val)
    have : ('a'.val - 'A'.val).toNat = 32 := rfl
    simp only [Char.toNat] at *
    omega
  · exact .inl rfl

theorem toLower_toLower (c : Char) : c.toLower.toLower = c.toLower := by
  rcases toLower_cases c with same | ⟨upper, lowered⟩
  · rw [same, same]
  · refine (toLower_cases c.toLower).resolve_right ?_
    rintro ⟨other, -⟩
    omega

theorem isBlank_toLower (c : Char) : isBlank c.toLower = isBlank c := by
  rcases toLower_cases c with same | ⟨upper, lowered⟩
  · rw [same]
  · have letter {d : Char} (within : 65 ≤ d.toNat ∧ d.toNat ≤ 122) : isBlank d = false := by
      simp only [isBlank, Bool.or_eq_false_iff, Bool.and_eq_false_iff, decide_eq_false_iff_not,
        beq_eq_false_iff_ne]
      omega
    rw [letter (d := c) (by omega), letter (by omega)]

def Solid (cs : List Char) : Prop := ∀ c ∈ cs, isBlank c = false

instance (cs : List Char) : Decidable (Solid cs) :=
  List.decidableBAll (fun c => isBlank c = false) cs

theorem solid_append {cs ds : List Char} : Solid (cs ++ ds) ↔ Solid cs ∧ Solid ds :=
  List.forall_mem_append

/-- `text` is `cs` with nothing but white space around it. -/
def Framed (cs text : List Char) : Prop :=
  ∃ front back, text = front ++ (cs ++ back) ∧ (∀ c ∈ front, isBlank c = true) ∧
    ∀ c ∈ back, isBlank c = true

theorem Framed.refl (cs : List Char) : Framed cs cs :=
  ⟨[], [], (List.append_nil cs).symm, List.forall_mem_nil _, List.forall_mem_nil _⟩

theorem takeWhile_blank (cs : List Char) : ∀ c ∈ cs.takeWhile isBlank, isBlank c = true :=
  List.all_eq_true.mp List.all_takeWhile

/-- What trimming leaves stands in white space. -/
theorem framed_trim (text : List Char) : Framed (trim text) text := by
  have front := List.takeWhile_append_dropWhile (p := isBlank) (l := text)
  have back := List.takeWhile_append_dropWhile (p := isBlank)
    (l := (text.dropWhile isBlank).reverse)
  refine ⟨text.takeWhile isBlank, ((text.dropWhile isBlank).reverse.takeWhile isBlank).reverse,
    ?_, takeWhile_blank text, ?_⟩
  · rw [trim, ← List.reverse_append, back, List.reverse_reverse, front]
  · intro c member
    exact takeWhile_blank _ c (List.mem_reverse.mp member)

theorem dropWhile_solid {cs : List Char} (solid : Solid cs) : cs.dropWhile isBlank = cs := by
  cases cs with
  | nil => rfl
  | cons c cs => rw [List.dropWhile_cons_of_neg (by simp [solid c List.mem_cons_self])]

theorem Framed.trim_eq {cs text : List Char} (framed : Framed cs text) (solid : Solid cs) :
    trim text = cs := by
  obtain ⟨front, back, rfl, before, behind⟩ := framed
  have flipped : Solid cs.reverse := fun c member => solid c (List.mem_reverse.mp member)
  rw [trim, List.dropWhile_append_of_pos before]
  cases cs with
  | nil =>
    rw [List.nil_append]
    have none : (back ++ []).dropWhile isBlank = [] := List.dropWhile_append_of_pos behind
    rw [List.append_nil] at none
    rw [none]
    rfl
  | cons c cs =>
    rw [List.cons_append, List.dropWhile_cons_of_neg (by simp [solid c List.mem_cons_self]),
      ← List.cons_append, List.reverse_append,
      List.dropWhile_append_of_pos fun c member => behind c (List.mem_reverse.mp member),
      dropWhile_solid flipped, List.reverse_reverse]

end RecordLedger.Text
