import RecordLedger.Proofs.Ledger.Shown

/-! Going on behind a page. A page that announces older records ends at a row of its tag, and every
page behind that row begins with the next one. -/
namespace RecordLedger.Ledger

open Store (Formed IndexRow)

variable {s t : Store} {tag : Tag} {turns : List Turn} {now : Instant} {k : Nat}
  {before : Option RecordId} {bound : Int} {page : ResultSet} {id : RecordId}

/-- A page starts in front of a row of its tag, or behind a record that has none. -/
theorem start_cases (formed : Formed s) (tag : Tag) (before : Option RecordId) :
    (∃ bound, Start s tag before bound) ∨
    ∃ id, before = some id ∧ ∀ row ∈ s.indexRows tag, row.id ≠ id.text := by
  cases before with
  | none =>
    left
    by_cases room : ∀ row ∈ s.indexRows tag, row.sequence < Word.maxSigned
    · exact ⟨_, .newest room⟩
    · simp only [not_forall, Int.not_lt] at room
      obtain ⟨row, listed, reached⟩ := room
      have bounds := formed.bounds row (Store.mem_indexRows.mp listed).1
      exact ⟨_, .wrapped listed (Int.le_antisymm bounds.2 reached)⟩
  | some id =>
    by_cases found : ∃ row ∈ s.indexRows tag, row.id = id.text
    · obtain ⟨row, listed, names⟩ := found
      obtain ⟨stored, tagged⟩ := Store.mem_indexRows.mp listed
      exact .inl ⟨_, .behind stored names tagged⟩
    · exact .inr ⟨id, rfl, fun row listed names => found ⟨row, listed, names⟩⟩

/-- The rows below a bound end the rows of the tag, and no others are left for the page. -/
theorem Start.rest (formed : Formed s) (start : Start s tag before bound)
    (filled : s.rowsBelow tag bound ≠ []) :
    (∃ front, s.indexRows tag = front ++ s.rowsBelow tag bound) ∧
      rowsBehind s tag before = s.rowsBelow tag bound := by
  cases start with
  | newest room => exact ⟨⟨[], (rowsBelow_all room).symm⟩, (rowsBelow_all room).symm⟩
  | wrapped => exact absurd (rowsBelow_none formed tag) filled
  | @behind id row stored names tagged =>
    refine ⟨?_, rowsBehind_eq formed stored names⟩
    obtain ⟨front, back, shape⟩ :=
      List.append_of_mem (Store.mem_indexRows.mpr ⟨stored, tagged⟩)
    refine ⟨front ++ [row], ?_⟩
    rw [(formed.around_row shape).1, shape, List.append_assoc]
    rfl

/-- A list that is cut short has a last element in front of the cut and a next one behind it. -/
theorem cut_short {α : Type} {xs : List α} {k : Nat} (filled : xs.take k ≠ [])
    (short : (xs.take k).length < xs.length) :
    ∃ front last next back, xs = front ++ last :: next :: back ∧ xs.take k = front ++ [last] := by
  obtain ⟨front, last, taken⟩ := List.eq_nil_or_concat (xs.take k) |>.resolve_left filled
  rw [List.concat_eq_append] at taken
  have left : xs.drop k ≠ [] := by
    intro nothing
    have lengths := congrArg List.length (List.take_append_drop k xs)
    rw [nothing, List.append_nil] at lengths
    omega
  obtain ⟨next, back, dropped⟩ := List.exists_cons_of_ne_nil left
  refine ⟨front, last, next, back, ?_, taken⟩
  have whole := List.take_append_drop k xs
  rw [taken, dropped, List.append_assoc] at whole
  exact whole.symm

/-- A page ends with the last record that it shows. -/
theorem fetch_endId (session : Session turns s)
    (met : (fetch (Store.answer now) tag k before).outcome s = (.ok page, t)) :
    page.page.endId = (page.remaining.map (·.id)).getLast? := by
  have backed := session.backed
  have formed := backed.sound.formed
  rcases start_cases formed tag before with ⟨bound, start⟩ | ⟨anchor, rfl, absent⟩
  · obtain ⟨k, ids, paged⟩ :=
      fetch_paged now formed (fun row _ => session.readable row.id) start met
    rw [paged.info, around_eq, paged.ids backed]
  · rcases Nat.eq_zero_or_pos k with rfl | positive
    · cases met
    rw [fetch_unanchored now positive absent] at met
    split at met <;> cases met
    rfl

/-- A page that announces older records and names its end stops at a row that is not the last
one. -/
theorem fetch_end (session : Session turns s)
    (met : (fetch (Store.answer now) tag k before).outcome s = (.ok page, t))
    (older : page.page.hasPrevious = true) (ends : page.page.endId = some id) :
    ∃ front last next back, s.indexRows tag = front ++ last :: next :: back ∧
      last.id = id.text := by
  have formed := session.backed.sound.formed
  rcases start_cases formed tag before with ⟨bound, start⟩ | ⟨anchor, rfl, absent⟩
  · obtain ⟨k, ids, paged⟩ :=
      fetch_paged now formed (fun row _ => session.readable row.id) start met
    have last : ids.getLast? = some id := by rwa [paged.info, around_eq] at ends
    have lengths := congrArg List.length paged.selected
    rw [List.length_map, List.length_map] at lengths
    have filled : (s.rowsBelow tag bound).take k ≠ [] := by
      intro nothing
      rw [nothing] at lengths
      rw [List.length_eq_zero_iff.mp lengths] at last
      cases last
    have some_row : s.rowsBelow tag bound ≠ [] := fun nothing =>
      filled (by rw [nothing, List.take_nil])
    obtain ⟨⟨newer, shape⟩, rest⟩ := start.rest formed some_row
    have short : ids.length < (rowsBehind s tag before).length := by
      rw [paged.info, around_eq] at older
      exact of_decide_eq_true older
    rw [rest, lengths] at short
    obtain ⟨front, row, next, back, cut, taken⟩ := cut_short filled short
    refine ⟨newer ++ front, row, next, back, ?_, ?_⟩
    · rw [List.append_assoc, ← cut]
      exact shape
    · have texts := congrArg List.getLast? paged.selected
      rw [taken, List.getLast?_map, List.getLast?_map, last, List.getLast?_concat] at texts
      exact (Option.some.inj texts).symm
  · rcases Nat.eq_zero_or_pos k with rfl | positive
    · cases met
    rw [fetch_unanchored now positive absent] at met
    split at met
    · cases met
      cases ends
    · cases met

/-- A page behind a row begins with the record of the next row. -/
theorem fetch_next (session : Session turns s) (now : Instant)
    {front back : List IndexRow} {last next : IndexRow}
    (shape : s.indexRows tag = front ++ last :: next :: back) (names : last.id = id.text)
    (positive : 1 ≤ k) (few : k ≤ Store.maxParameters) :
    ∃ page v rest, (fetch (Store.answer now) tag k (some id)).outcome s = (.ok page, s) ∧
      page.remaining = v :: rest ∧ v.id.text = next.id := by
  have backed := session.backed
  have formed := backed.sound.formed
  obtain ⟨stored, tagged⟩ := Store.mem_indexRows.mp
    (show last ∈ s.indexRows tag by rw [shape]; exact List.mem_append_right _ List.mem_cons_self)
  have below := (formed.around_row shape).1
  obtain ⟨page, ids, answered, paged⟩ := fetch_answer now formed
    (fun row _ => session.readable row.id) (.behind stored names tagged) positive
    (Nat.le_trans few (by decide)) (by rw [List.length_take]; omega)
  have selected := paged.selected
  obtain ⟨n, rfl⟩ : ∃ n, k = n + 1 := ⟨k - 1, by omega⟩
  rw [below, List.take_succ_cons, List.map_cons, ← paged.ids backed] at selected
  obtain ⟨v, rest, records, first, _⟩ := List.map_eq_cons_iff.mp
    (List.map_map.symm.trans selected)
  exact ⟨page, v, rest, answered, records, first⟩

end RecordLedger.Ledger
