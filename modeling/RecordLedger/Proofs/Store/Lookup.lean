import RecordLedger.Proofs.Store.Latest

/-! What the lookups of a store tell about the rows of an id, and how the rows of a sound store are
read. -/
namespace RecordLedger.Store

/-- Reading a list succeeds where each element can be read, and keeps what is read off the
results. -/
theorem mapM_ok {f : α → Except ε β} (g : β → γ) (h : α → γ) (xs : List α)
    (each : ∀ x ∈ xs, ∃ y, f x = .ok y ∧ g y = h x) :
    ∃ ys, xs.mapM f = .ok ys ∧ ys.map g = xs.map h := by
  induction xs with
  | nil => exact ⟨[], rfl, rfl⟩
  | cons x xs ih =>
    obtain ⟨y, read, same⟩ := each x List.mem_cons_self
    obtain ⟨ys, rest, tail⟩ := ih fun z member => each z (List.mem_cons_of_mem x member)
    refine ⟨y :: ys, ?_, by simp [same, tail]⟩
    rw [List.mapM_cons, read, rest]
    rfl

/-- Reading a list reads every element, or fails as one of them does. -/
theorem mapM_cases (f : α → Except ε β) (xs : List α) :
    (∃ ys, xs.mapM f = .ok ys ∧ (∀ x ∈ xs, ∃ y ∈ ys, f x = .ok y) ∧
        ∀ y ∈ ys, ∃ x ∈ xs, f x = .ok y) ∨
      ∃ x ∈ xs, ∃ e, f x = .error e ∧ xs.mapM f = .error e := by
  induction xs with
  | nil => exact .inl ⟨[], rfl, by simp⟩
  | cons x xs ih =>
    rw [List.mapM_cons]
    cases first : f x with
    | error e => exact .inr ⟨x, List.mem_cons_self, e, first, rfl⟩
    | ok y =>
      obtain ⟨ys, rest, forth, back⟩ | ⟨z, member, e, failed, rest⟩ := ih
      · refine .inl ⟨y :: ys, by rw [rest]; rfl, ?_, ?_⟩
        · refine List.forall_mem_cons.mpr ⟨⟨y, List.mem_cons_self, first⟩, fun z member => ?_⟩
          obtain ⟨w, among, met⟩ := forth z member
          exact ⟨w, List.mem_cons_of_mem y among, met⟩
        · refine List.forall_mem_cons.mpr ⟨⟨x, List.mem_cons_self, first⟩, fun w member => ?_⟩
          obtain ⟨z, among, met⟩ := back w member
          exact ⟨z, List.mem_cons_of_mem x among, met⟩
      · exact .inr ⟨z, List.mem_cons_of_mem x member, e, failed, by rw [rest]; rfl⟩

theorem find?_eq_some {p : α → Bool} {xs : List α} {x : α} (member : x ∈ xs) (found : p x = true)
    (only : ∀ y ∈ xs, p y = true → y = x) : xs.find? p = some x := by
  cases search : xs.find? p with
  | none => exact absurd found (List.find?_eq_none.mp search x member)
  | some y => rw [only y (List.mem_of_find?_eq_some search) (List.find?_some search)]

theorem readId_text (n : Int) (id : RecordId) : readId n id.text = .ok id := by
  rw [readId, RecordId.parse_text]; rfl

theorem readTag_of_text (n : Int) (tag : Tag) : readTag n tag.text = .ok tag := by
  rw [readTag, Tag.parse_text]; rfl

variable {s : Store} {id : RecordId} {tag : Tag} {r : VersionRow} {v : Version}

theorem IndexRow.decode_ok {row : IndexRow} (idText : id.text = row.id)
    (tagText : tag.text = row.tag) : row.decode = .ok ⟨Word.unsigned row.sequence, id, tag⟩ := by
  rw [IndexRow.decode, ← idText, ← tagText, readId_text, readTag_of_text]
  rfl

theorem readTag_text {n : Int} {text : String} (read : readTag n text = .ok tag) :
    tag.text = text := by
  unfold readTag at read
  cases parsed : Tag.parse text with
  | error fault => rw [parsed] at read; cases read
  | ok found =>
    rw [parsed] at read
    cases read
    exact Tag.text_of_parse text tag parsed

theorem readVersion?_some {found : Option VersionRow} (read : readVersion? found = .ok (some v)) :
    ∃ r, found = some r := by
  cases found with
  | none => cases read
  | some r => exact ⟨r, rfl⟩

theorem tagOf_none (found : s.tagOf id = .ok none) : ∀ r ∈ s.versions, r.id ≠ id.text := by
  unfold tagOf at found
  split at found
  · next empty =>
    intro r stored names
    have member : r ∈ Sort.sort bySequence (s.versions.filter (·.id == id.text)) := by
      simp [stored, names]
    rw [List.head?_eq_none_iff.mp empty] at member
    cases member
  · next first _ =>
    cases read : readTag first.sequence first.tag <;> rw [read] at found <;> cases found

theorem tagOf_some (found : s.tagOf id = .ok (some tag)) :
    ∃ r ∈ s.versions, r.id = id.text ∧ r.tag = tag.text := by
  unfold tagOf at found
  split at found
  · cases found
  · next first atHead =>
    have member := List.mem_of_mem_head? atHead
    simp only [Sort.mem_sort, List.mem_filter, beq_iff_eq] at member
    cases read : readTag first.sequence first.tag with
    | error e => rw [read] at found; cases found
    | ok known =>
      rw [read] at found
      cases found
      exact ⟨first, member.1, member.2, (readTag_text read).symm⟩

theorem latestVersion_some (found : s.latestVersion id tag = .ok (some v)) :
    ∃ r ∈ s.versions, r.id = id.text ∧ r.tag = tag.text := by
  rw [latestVersion_eq_find] at found
  obtain ⟨r, first⟩ := readVersion?_some found
  have member := mem_rowsOf.mp (List.mem_of_find?_eq_some first)
  exact ⟨r, member.1, member.2, by simpa using List.find?_some first⟩

theorem versionAt_some {at_ : Instant} (found : s.versionAt id tag at_ = .ok (some v)) :
    ∃ r ∈ s.versions, r.id = id.text ∧ r.tag = tag.text := by
  rw [versionAt_eq_find] at found
  obtain ⟨r, first⟩ := readVersion?_some found
  have member := mem_rowsOf.mp (List.mem_of_find?_eq_some first)
  have fields := List.find?_some first
  simp only [Bool.and_eq_true, beq_iff_eq] at fields
  exact ⟨r, member.1, member.2, fields.1⟩

end RecordLedger.Store
