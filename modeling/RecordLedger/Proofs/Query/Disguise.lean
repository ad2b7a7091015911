import RecordLedger.Proofs.Query.Boundary
import RecordLedger.Store.Query

/-! Statements in disguise. The shape of a text asks for nothing behind the columns and the history,
so any text is let through behind a common table expression that names both. -/
namespace RecordLedger.Query

/-- What is written behind a solid character changes nothing in the normal form before it. -/
theorem normalize_extends {xs : List Char} (last : xs.getLast?.any solid = true) (ys : List Char) :
    normalize xs ≠ [] ∧ normalize xs <+: normalize (xs ++ ys) := by
  induction xs with
  | nil => cases last
  | cons c xs ih =>
    cases xs with
    | nil =>
      have kind : solid c = true := last
      have letter : Text.isBlank c = false := by
        rw [solid, Bool.and_eq_true, Bool.not_eq_true'] at kind
        exact kind.1
      have alone : normalize [c] = [c.toLower] := by
        rw [normalize_letter letter, gap, opensGap, show normalize [] = [] from rfl]
        simp
      rw [List.singleton_append, normalize_letter letter ys, alone]
      exact ⟨List.cons_ne_nil _ _, _, rfl⟩
    | cons d xs =>
      rw [List.getLast?_cons_cons] at last
      obtain ⟨some, rest, same⟩ := ih last
      by_cases blank : Text.isBlank c = true
      · rw [List.cons_append, normalize_blank blank, normalize_blank blank]
        exact ⟨some, rest, same⟩
      · have letter := Bool.eq_false_iff.mpr blank
        have opens : opensGap (d :: xs ++ ys) = opensGap (d :: xs) := by
          obtain ⟨e, es, shape⟩ := List.exists_cons_of_ne_nil some
          rw [opensGap, opensGap, ← same, shape]
          rfl
        rw [List.cons_append, normalize_letter letter, normalize_letter letter,
          gap_congr rfl opens, ← same]
        exact ⟨List.cons_ne_nil _ _, rest, by simp⟩

/-- An expression that projects and reads what a statement has to. Nothing need refer to it. -/
def pretext : String :=
  "WITH v AS (SELECT sequence, id, data_type, payload, timestamp FROM record)"

def disguised (statement : String) : String := pretext ++ " " ++ statement

/-- Whatever stands behind the pretext, the text is let through. -/
theorem disguised_accepted (statement : String) : violation? (disguised statement) = none := by
  have last : pretext.toList.getLast?.any solid = true := by decide
  obtain ⟨rest, shape⟩ := (normalize_extends last (" " ++ statement).toList).2
  have text : (disguised statement).toList = pretext.toList ++ (" " ++ statement).toList := by
    simp [disguised]
  have front : normalize pretext.toList = "with v as (select ".toList ++
      (columns ++ (' ' :: (reading ++ [')']))) := by decide +kernel
  rw [front] at shape
  refine accepted_iff.mpr ?_
  rw [text, ← shape]
  refine ⟨.inr ?_, ?_, ?_⟩
  · rfl
  · exact ⟨"with v as (select ".toList, ' ' :: (reading ++ [')']) ++ rest, by simp,
      fun _ _ => rfl, fun _ _ => rfl⟩
  · refine ⟨"with v as (select ".toList ++ (columns ++ [' ']), ')' :: rest, by simp,
      fun _ _ => rfl, ?_⟩
    rintro c ⟨⟩
    rfl

def pretextTerms : List Term :=
  [.column ⟨0, .integer⟩, .column ⟨1, .text⟩, .column ⟨2, .text⟩, .column ⟨3, .text⟩,
    .column ⟨4, .integer⟩]

def fromPretext (outputs : List Term) : Plan :=
  .select (.select (.scan .history) none [] none none pretextTerms) none [] none none outputs

def unlists : Directive := .delete .index none none

def unlisting : String := disguised "DELETE FROM record_index"

theorem unlisting_resolved : Store.resolved? unlisting = some (0, unlists) := by decide +kernel

/-- Gives every version a twin of an earlier time, with another payload. -/
def backdates : Directive :=
  .insert .abort .history [none, some 0, some 1, some 2, some 3]
    (fromPretext [.column ⟨1, .text⟩, .column ⟨2, .text⟩, .literal (.text "2"),
      .literal (.int 0)]) none

def backdating : String :=
  disguised ("INSERT INTO record (id, data_type, payload, timestamp) " ++
    "SELECT id, data_type, '2', 0 FROM v")

theorem backdating_resolved : Store.resolved? backdating = some (0, backdates) := by
  decide +kernel

def replaces : Directive :=
  .insert .replace .history [some 0, some 1, some 2, some 3, some 4]
    (fromPretext [.column ⟨0, .integer⟩, .column ⟨1, .text⟩, .column ⟨2, .text⟩,
      .literal (.text "2"), .column ⟨4, .integer⟩]) none

def replacing : String :=
  disguised "REPLACE INTO record SELECT sequence, id, data_type, '2', timestamp FROM v"

theorem replacing_resolved : Store.resolved? replacing = some (0, replaces) := by decide +kernel

def raises : Directive :=
  .insert .replace .index [some 0, some 1, some 2]
    (fromPretext [.literal (.int 9223372036854775807), .column ⟨1, .text⟩,
      .column ⟨2, .text⟩]) none

def raising : String :=
  disguised "REPLACE INTO record_index SELECT 9223372036854775807, id, data_type FROM v"

theorem raising_resolved : Store.resolved? raising = some (0, raises) := by decide +kernel

end RecordLedger.Query
