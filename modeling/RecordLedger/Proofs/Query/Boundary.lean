import RecordLedger.Proofs.Query.Layout
import RecordLedger.Query.Token

/-! Where the columns and the history are named. The shape of a statement asks that both stand
somewhere in its text. It looks behind the name of the history for a letter, a digit or an
underscore, and at no other boundary. -/
namespace RecordLedger

theorem Text.mem_followers {part text rest : List Char} :
    rest ∈ followers part text ↔ ∃ front, text = front ++ part ++ rest := by
  induction text with
  | nil =>
    rw [followers, Option.mem_toList, after?_eq_some_iff]
    constructor
    · exact fun same => ⟨[], same⟩
    · rintro ⟨front, same⟩
      cases front with
      | nil => exact same
      | cons => cases same
  | cons c text ih =>
    rw [followers, List.mem_append, Option.mem_toList, after?_eq_some_iff, ih]
    constructor
    · rintro (same | ⟨front, rfl⟩)
      · exact ⟨[], same⟩
      · exact ⟨c :: front, rfl⟩
    · rintro ⟨front, same⟩
      cases front with
      | nil => exact .inl same
      | cons d front => exact .inr ⟨front, (List.cons.inj same).2⟩

namespace Query

/-- A text contains another one, directly behind no character of the first kind and directly before
none of the second. -/
def Occurs (left right : Char → Bool) (part text : List Char) : Prop :=
  ∃ front back, text = front ++ part ++ back ∧
    (∀ c ∈ front.getLast?, left c = false) ∧ ∀ c ∈ back.head?, right c = false

def Whole (part text : List Char) : Prop := Occurs Token.isNameChar Token.isNameChar part text

section

variable {left right : Char → Bool} {part text : List Char}

theorem occurs_iff :
    Occurs left right part text ↔
      ∃ rest ∈ Text.followers part text,
        (text.take (text.length - (part.length + rest.length))).getLast?.any left = false ∧
          rest.head?.any right = false := by
  have front_eq (front back : List Char) : (front ++ part ++ back).take
      ((front ++ part ++ back).length - (part.length + back.length)) = front := by
    rw [List.append_assoc, List.length_append, List.length_append, Nat.add_sub_cancel]
    exact List.take_left
  simp only [Option.any_eq_false]
  constructor
  · rintro ⟨front, back, rfl, before, behind⟩
    refine ⟨back, Text.mem_followers.mpr ⟨front, rfl⟩, ?_, behind⟩
    rwa [front_eq]
  · rintro ⟨back, member, before, behind⟩
    obtain ⟨front, rfl⟩ := Text.mem_followers.mp member
    rw [front_eq] at before
    exact ⟨front, back, rfl, before, behind⟩

instance : Decidable (Occurs left right part text) := decidable_of_iff _ occurs_iff.symm
instance : Decidable (Whole part text) := inferInstanceAs (Decidable (Occurs _ _ part text))

theorem Occurs.mono {left' right' : Char → Bool} (occurs : Occurs left right part text)
    (before : ∀ c, left c = false → left' c = false)
    (behind : ∀ c, right c = false → right' c = false) : Occurs left' right' part text := by
  obtain ⟨front, back, split, last, first⟩ := occurs
  exact ⟨front, back, split, fun c mem => before c (last c mem),
    fun c mem => behind c (first c mem)⟩

end

def columns : List Char := normalize projection.toList

def reading : List Char := ("from " ++ historyName).toList

def Opens (text : List Char) : Prop :=
  startsWith "select" text = true ∨ startsWith "with" text = true

def nothing (_ : Char) : Bool := false

theorem isWordChar_of_not_isNameChar {c : Char} (other : Token.isNameChar c = false) :
    isWordChar c = false := by
  simp only [Token.isNameChar, Bool.or_eq_false_iff] at other
  exact Bool.or_eq_false_iff.mpr other.1.1

theorem projects_iff {text : List Char} :
    projects text = true ↔ Occurs nothing nothing columns text := by
  rw [projects, Bool.not_eq_true', List.isEmpty_eq_false_iff_exists_mem]
  constructor
  · rintro ⟨back, member⟩
    obtain ⟨front, split⟩ := Text.mem_followers.mp member
    exact ⟨front, back, split, fun _ _ => rfl, fun _ _ => rfl⟩
  · rintro ⟨front, back, split, -, -⟩
    exact ⟨back, Text.mem_followers.mpr ⟨front, split⟩⟩

theorem endsWord_iff {rest : List Char} :
    endsWord rest = true ↔ ∀ c ∈ rest.head?, isWordChar c = false := by
  cases rest <;> simp [endsWord]

theorem readsHistory_iff {text : List Char} :
    readsHistory text = true ↔ Occurs nothing isWordChar reading text := by
  rw [readsHistory, List.any_eq_true]
  constructor
  · rintro ⟨back, member, ends⟩
    obtain ⟨front, split⟩ := Text.mem_followers.mp member
    exact ⟨front, back, split, fun _ _ => rfl, endsWord_iff.mp ends⟩
  · rintro ⟨front, back, split, -, ends⟩
    exact ⟨back, Text.mem_followers.mpr ⟨front, split⟩, endsWord_iff.mpr ends⟩

/-- A statement is let through exactly if it opens as a read and both stand somewhere, the name of
the history before no word character. -/
theorem accepted_iff {sql : String} :
    violation? sql = none ↔
      Opens (normalize sql.toList) ∧ Occurs nothing nothing columns (normalize sql.toList) ∧
        Occurs nothing isWordChar reading (normalize sql.toList) := by
  rw [← projects_iff, ← readsHistory_iff, violation?, Opens]
  generalize normalize sql.toList = text
  cases text with
  | nil => simp [startsWith, Text.after?]
  | cons c text =>
    rw [List.isEmpty_cons, if_neg Bool.false_ne_true]
    cases startsWith "select" (c :: text) <;> cases startsWith "with" (c :: text) <;>
      cases projects (c :: text) <;> cases readsHistory (c :: text) <;> decide

theorem accepted_of_whole {sql : String} (opens : Opens (normalize sql.toList))
    (columnsWhole : Whole columns (normalize sql.toList))
    (readingWhole : Whole reading (normalize sql.toList)) : violation? sql = none :=
  accepted_iff.mpr ⟨opens, columnsWhole.mono (fun _ _ => rfl) fun _ _ => rfl,
    readingWhole.mono (fun _ _ => rfl) fun _ => isWordChar_of_not_isNameChar⟩

/-- A place where a character stands in a text is the first one or lies behind it. -/
theorem cut {x s rest y : List Char} {c : Char} (clear : c ∉ s)
    (same : x ++ c :: y = s ++ c :: rest) :
    (x = s ∧ y = rest) ∨ ∃ z, x = s ++ c :: z ∧ z ++ c :: y = rest := by
  rcases List.append_eq_append_iff.mp same with ⟨z, rfl, later⟩ | ⟨z, rfl, later⟩
  · cases z with
    | nil => exact .inl ⟨(List.append_nil x).symm, (List.cons.inj later).2⟩
    | cons d z =>
      rw [(List.cons.inj later).1] at clear
      exact absurd (List.mem_append_right x List.mem_cons_self) clear
  · cases z with
    | nil => exact .inl ⟨List.append_nil s, (List.cons.inj later).2.symm⟩
    | cons d z =>
      obtain ⟨rfl, rest⟩ := List.cons.inj later
      exact .inr ⟨z, rfl, rest.symm⟩

theorem cut_first {x s rest y : List Char} {c : Char} (clear : c ∉ s) (other : c ∉ x)
    (same : x ++ c :: y = s ++ c :: rest) : x = s ∧ y = rest := by
  refine (cut clear same).resolve_right ?_
  rintro ⟨z, rfl, -⟩
  exact other (List.mem_append_right s List.mem_cons_self)

abbrev Neighbour : Type :=
  {c : Char // Token.isNameChar c = true ∧ Text.isBlank c = false ∧ c.toLower = c}

abbrev Side := Option Neighbour

def Side.Clear (kind : Char → Bool) (a : Side) : Prop := ∀ x ∈ a, kind x.val = false

def Side.text (a : Side) : List Char := (a.map Subtype.val).toList

@[simp]
theorem Side.text_none : Side.text none = [] := rfl

def beside (a b c d : Side) : List Char :=
  "select".toList ++ ' ' :: (a.text ++ columns ++ b.text ++ ' ' ::
    (c.text ++ "from".toList ++ ' ' :: ("record".toList ++ d.text)))

theorem Neighbour.solid (x : Neighbour) : solid x.val = true := by
  obtain ⟨c, name, letter, -⟩ := x
  have : c ≠ ',' := by rintro rfl; cases name
  simp [Query.solid, letter, this]

theorem Side.letters (a : Side) : ∀ c ∈ a.text, Text.isBlank c = false := by
  intro c mem
  cases a with
  | none => cases mem
  | some x => rw [List.mem_singleton.mp mem]; exact x.property.2.1

theorem Side.map_toLower (a : Side) : a.text.map Char.toLower = a.text := by
  cases a with
  | none => rfl
  | some x => exact congrArg (fun c => [c]) x.property.2.2

theorem Side.comma (a : Side) : ',' ∉ a.text := by
  cases a with
  | none => exact nofun
  | some x =>
    intro mem
    have := x.property.1
    rw [← List.mem_singleton.mp mem] at this
    cases this

theorem Side.space (a : Side) : ' ' ∉ a.text := by
  intro mem
  cases a.letters _ mem

theorem Side.head_solid {cs : List Char} (a : Side) (start : cs.head?.any solid = true) :
    (a.text ++ cs).head?.any Query.solid = true := by
  cases a with
  | none => exact start
  | some x => exact x.solid

theorem Side.last_solid {cs : List Char} (a : Side) (ends : cs.getLast?.any solid = true) :
    (cs ++ a.text).getLast?.any Query.solid = true := by
  cases a with
  | none => rwa [Side.text_none, List.append_nil]
  | some x =>
    rw [List.getLast?_append]
    exact x.solid

theorem Side.clear_last {kind : Char → Bool} (a : Side) (cs : List Char)
    (space : kind ' ' = false) :
    (∀ c ∈ (cs ++ ' ' :: a.text).getLast?, kind c = false) ↔ a.Clear kind := by
  cases a <;> simp [Side.Clear, Side.text, space]

theorem Side.clear_head {kind : Char → Bool} {cs : List Char} (a : Side)
    (space : kind ' ' = false) :
    (∀ c ∈ (a.text ++ ' ' :: cs).head?, kind c = false) ↔ a.Clear kind := by
  cases a <;> simp [Side.Clear, Side.text, space]

theorem Side.clear_text {kind : Char → Bool} (a : Side) :
    (∀ c ∈ a.text.head?, kind c = false) ↔ a.Clear kind := by
  cases a <;> simp [Side.Clear, Side.text]

theorem Side.clear_isNameChar {a : Side} : a.Clear Token.isNameChar ↔ a = none := by
  cases a with
  | none => simp [Side.Clear]
  | some x => simp [Side.Clear, x.property.1]

theorem columns_eq :
    columns = "sequence".toList ++ ',' :: "id,data_type,payload,timestamp".toList := by
  decide +kernel

theorem letters_of_any {cs : List Char} (none : cs.any Text.isBlank = false) :
    ∀ c ∈ cs, Text.isBlank c = false :=
  fun c mem => Bool.eq_false_iff.mpr (List.any_eq_false.mp none c mem)

theorem columns_letters : ∀ c ∈ columns, Text.isBlank c = false := by
  rw [columns_eq]
  exact letters_of_any rfl

theorem columns_last : columns.getLast? = some 'p' := by rw [columns_eq]; decide

section

variable {a b c d : Side}

theorem tidy_beside : Tidy (beside a b c d) := by
  have read : ∀ x ∈ a.text ++ columns ++ b.text, Text.isBlank x = false :=
    List.forall_mem_append.mpr ⟨List.forall_mem_append.mpr ⟨a.letters, columns_letters⟩, b.letters⟩
  have reads : (a.text ++ columns ++ b.text).getLast?.any solid = true := by
    refine b.last_solid ?_
    rw [List.getLast?_append, columns_last]
    rfl
  have start : columns.head? = some 's' := by rw [columns_eq]; rfl
  have last : Tidy ("record".toList ++ d.text) :=
    tidy_of_letters (List.forall_mem_append.mpr ⟨letters_of_any rfl, d.letters⟩)
  refine Tidy.word (Tidy.word (Tidy.word last rfl ?_ ?_) ?_ read reads) ?_ (letters_of_any rfl) rfl
  · exact List.forall_mem_append.mpr ⟨c.letters, letters_of_any rfl⟩
  · rw [List.getLast?_append]
    rfl
  · rw [List.append_assoc]
    exact c.head_solid rfl
  · rw [List.append_assoc, List.append_assoc]
    exact a.head_solid (by rw [List.head?_append, start]; rfl)

theorem normalize_beside : normalize (beside a b c d) = beside a b c d := by
  rw [normalize_of_tidy tidy_beside]
  have read : columns.map Char.toLower = columns := by rw [columns_eq]; decide
  delta beside
  simp only [List.map_append, List.map_cons, Side.map_toLower, read]
  rfl

/-- The columns stand in it only once. -/
theorem columns_in_beside {front back : List Char}
    (split : beside a b c d = front ++ columns ++ back) :
    front = "select".toList ++ ' ' :: a.text ∧
      back = b.text ++ ' ' :: (c.text ++ "from".toList ++ ' ' :: ("record".toList ++ d.text)) := by
  delta beside at split
  have none (a : Side) : a.text.count ',' = 0 := List.count_eq_zero.mpr a.comma
  have clear : ',' ∉ front := by
    have count := congrArg (List.count ',') split
    have select : "select".toList.count ',' = 0 := by decide
    have fromWord : "from".toList.count ',' = 0 := by decide
    have record : "record".toList.count ',' = 0 := by decide
    have space : (' ' == ',') = false := by decide
    simp only [List.count_append, List.count_cons, none, select, fromWord, record, space,
      Bool.false_eq_true, if_false] at count
    exact List.count_eq_zero.mp (by omega)
  obtain ⟨tail, shape⟩ : ∃ tail, columns = "sequence".toList ++ ',' :: tail := ⟨_, columns_eq⟩
  have same : (front ++ "sequence".toList) ++ ',' :: (tail ++ back) =
      ("select".toList ++ ' ' :: (a.text ++ "sequence".toList)) ++ ',' :: (tail ++ (b.text ++ ' ' ::
        (c.text ++ "from".toList ++ ' ' :: ("record".toList ++ d.text)))) := by
    rw [shape] at split
    simp only [List.append_assoc, List.cons_append] at split ⊢
    exact split.symm
  have first : ',' ∉ "select".toList ++ ' ' :: (a.text ++ "sequence".toList) := by
    simp only [List.mem_append, List.mem_cons, a.comma]
    decide
  have second : ',' ∉ front ++ "sequence".toList := by
    simp only [List.mem_append, clear]
    decide
  obtain ⟨before, behind⟩ := cut_first first second same
  refine ⟨?_, List.append_cancel_left behind⟩
  rw [← List.cons_append, ← List.append_assoc] at before
  exact List.append_cancel_right before

/-- One character behind the columns makes no `from` of their end. -/
theorem columns_no_from {front back : List Char} :
    front ++ "from".toList ≠ back ++ ' ' :: (a.text ++ columns ++ b.text) := by
  intro same
  rw [List.append_cons, ← List.append_assoc, ← List.append_assoc] at same
  cases b with
  | none =>
    have ends := congrArg List.getLast? same
    rw [Side.text_none, List.append_nil, List.getLast?_append, List.getLast?_append,
      columns_last] at ends
    cases ends
  | some x =>
    have tail : front ++ "fro".toList ++ ['m'] =
        back ++ [' '] ++ a.text ++ columns ++ [x.val] := by
      rw [List.append_assoc front]
      exact same
    have ends := congrArg List.getLast? (List.append_inj' tail rfl).1
    rw [List.getLast?_append, List.getLast?_append, columns_last] at ends
    cases ends

/-- The history is named in it only once. -/
theorem reading_in_beside {front back : List Char}
    (split : beside a b c d = front ++ reading ++ back) :
    front = "select".toList ++ ' ' :: (a.text ++ columns ++ b.text) ++ ' ' :: c.text ∧
      back = d.text := by
  have same : (front ++ "from".toList) ++ ' ' :: ("record".toList ++ back) = beside a b c d := by
    rw [split, List.append_assoc front reading back]
    simp only [List.append_assoc]
    rfl
  have inColumns : ' ' ∉ a.text ++ columns ++ b.text := by
    have clear : ' ' ∉ columns := fun mem => absurd (columns_letters _ mem) (by decide)
    simp only [List.mem_append, a.space, b.space, clear, or_self, not_false_iff]
  have inFrom : ' ' ∉ c.text ++ "from".toList := by
    simp only [List.mem_append, c.space]
    decide
  have inRecord : ' ' ∉ "record".toList ++ d.text := by
    simp only [List.mem_append, d.space]
    decide
  rcases cut (by decide) same with ⟨before, -⟩ | ⟨z, before, later⟩
  · have ends := congrArg List.getLast? before
    rw [List.getLast?_append] at ends
    cases ends
  · rcases cut inColumns later with ⟨rfl, -⟩ | ⟨w, rfl, last⟩
    · exact absurd before columns_no_from
    · rcases cut inFrom last with ⟨rfl, behind⟩ | ⟨v, rfl, final⟩
      · refine ⟨?_, List.append_cancel_left behind⟩
        refine List.append_cancel_right (before.trans ?_)
        simp only [List.append_assoc, List.cons_append]
      · rw [← final] at inRecord
        exact absurd (List.mem_append_right v List.mem_cons_self) inRecord

theorem beside_eq_columns_iff {front back : List Char} :
    beside a b c d = front ++ columns ++ back ↔ front = "select".toList ++ ' ' :: a.text ∧
      back = b.text ++ ' ' :: (c.text ++ "from".toList ++ ' ' :: ("record".toList ++ d.text)) := by
  refine ⟨columns_in_beside, ?_⟩
  rintro ⟨rfl, rfl⟩
  delta beside
  simp only [List.append_assoc, List.cons_append]

theorem beside_eq_reading_iff {front back : List Char} :
    beside a b c d = front ++ reading ++ back ↔
      front = "select".toList ++ ' ' :: (a.text ++ columns ++ b.text) ++ ' ' :: c.text ∧
        back = d.text := by
  refine ⟨reading_in_beside, ?_⟩
  rintro ⟨rfl, rfl⟩
  delta beside
  rw [show reading = "from".toList ++ ' ' :: "record".toList from rfl]
  simp only [List.append_assoc, List.cons_append]

variable {left right : Char → Bool}

theorem occurs_columns_beside (before : left ' ' = false) (behind : right ' ' = false) :
    Occurs left right columns (beside a b c d) ↔ a.Clear left ∧ b.Clear right := by
  rw [← a.clear_last "select".toList before, ← b.clear_head behind]
  constructor
  · rintro ⟨front, back, split, last, first⟩
    obtain ⟨rfl, rfl⟩ := beside_eq_columns_iff.mp split
    exact ⟨last, first⟩
  · rintro ⟨last, first⟩
    exact ⟨_, _, beside_eq_columns_iff.mpr ⟨rfl, rfl⟩, last, first⟩

theorem occurs_reading_beside (before : left ' ' = false) :
    Occurs left right reading (beside a b c d) ↔ c.Clear left ∧ d.Clear right := by
  rw [← c.clear_last ("select".toList ++ ' ' :: (a.text ++ columns ++ b.text)) before,
    ← d.clear_text]
  constructor
  · rintro ⟨front, back, split, last, first⟩
    obtain ⟨rfl, rfl⟩ := beside_eq_reading_iff.mp split
    exact ⟨last, first⟩
  · rintro ⟨last, first⟩
    exact ⟨_, _, beside_eq_reading_iff.mpr ⟨rfl, rfl⟩, last, first⟩

/-- Only what stands behind the name of the history can have such a statement rejected. -/
theorem violation_beside :
    violation? (String.ofList (beside a b c d)) =
      if d.any fun x => isWordChar x.val then some .relation else none := by
  have opens : startsWith "select" (beside a b c d) = true := rfl
  have some : (beside a b c d).isEmpty = false := rfl
  have reads : projects (beside a b c d) = true := by
    rw [projects_iff, occurs_columns_beside rfl rfl]
    exact ⟨fun _ _ => rfl, fun _ _ => rfl⟩
  have ends : readsHistory (beside a b c d) = !(d.any fun x => isWordChar x.val) := by
    rw [Bool.eq_iff_iff, readsHistory_iff, occurs_reading_beside rfl]
    cases d <;> simp [Side.Clear, nothing]
  rw [violation?, String.toList_ofList, normalize_beside, some, opens, reads, ends]
  cases d.any fun x => isWordChar x.val <;> rfl

end

/-- A statement is let through exactly if it opens as a read, has the columns somewhere and names
the history somewhere with no word character behind. That lets every statement through that names
both as whole identifiers, and others: of the four boundaries of a read only the last is looked at,
and there `$` and what is not ASCII pass. -/
theorem shape_boundaries (sql : String) (a b c d : Side) :
    let text := normalize sql.toList
    (violation? sql = none ↔
      Opens text ∧ Occurs nothing nothing columns text ∧ Occurs nothing isWordChar reading text) ∧
    (violation? sql = none ∧ Whole columns text ∧ Whole reading text ↔
      Opens text ∧ Whole columns text ∧ Whole reading text) ∧
    normalize (beside a b c d) = beside a b c d ∧
    (violation? (String.ofList (beside a b c d)) =
      if d.any fun x => isWordChar x.val then some .relation else none) ∧
    (Whole columns (beside a b c d) ↔ a = none ∧ b = none) ∧
    (Whole reading (beside a b c d) ↔ c = none ∧ d = none) := by
  refine ⟨accepted_iff, ?_, normalize_beside, violation_beside, ?_, ?_⟩
  · constructor
    · rintro ⟨accepted, wholes⟩
      exact ⟨(accepted_iff.mp accepted).1, wholes⟩
    · rintro ⟨opens, wholes⟩
      exact ⟨accepted_of_whole opens wholes.1 wholes.2, wholes⟩
  · rw [Whole, occurs_columns_beside rfl rfl, Side.clear_isNameChar, Side.clear_isNameChar]
  · rw [Whole, occurs_reading_beside rfl, Side.clear_isNameChar, Side.clear_isNameChar]

/-- Columns that only contain the required ones, and a relation whose name only begins like that of
the history. -/
def blurred : String :=
  "SELECT subsequence, id, data_type, payload, timestamps FROM record$x"

theorem blurred_let_through :
    violation? blurred = none ∧ ¬ Whole columns (normalize blurred.toList) ∧
      ¬ Whole reading (normalize blurred.toList) := by
  decide +kernel

end Query
end RecordLedger
