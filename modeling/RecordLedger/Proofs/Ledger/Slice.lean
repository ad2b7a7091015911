import RecordLedger.Proofs.Ledger.Page

/-! A page as a slice of the index rows of its tag by decreasing numbers. This holds in every store
that the constraints of the two relations allow, whatever calls or rows from outside have made it.
-/
namespace RecordLedger.Ledger

open Store (Latest Formed IndexRow Readable Spoiled)

structure Listed (s : Store) (tag : Tag) (rows : List IndexRow) : Prop where
  all : rows.Perm (s.index.filter (·.tag == tag.text))
  decreasing : rows.Pairwise fun a b => b.sequence < a.sequence

inductive Split (rows : List IndexRow) : Option RecordId → List IndexRow → List IndexRow → Prop
  | newest : Split rows none [] rows
  | behind {id : RecordId} {front back : List IndexRow} {row : IndexRow}
      (shape : rows = front ++ row :: back) (names : row.id = id.text) :
      Split rows (some id) front back

structure Current (s : Store) (tag : Tag) (id : RecordId) (v : Version) : Prop where
  names : v.id = id
  tagged : v.tag = tag
  word : v.sequence ≤ Word.maxUnsigned
  latest : Latest s id.text v.row

/-- The current versions of ids in the order of the ids, which may have none. -/
inductive Gathered (s : Store) (tag : Tag) : List RecordId → List Version → Prop
  | nil : Gathered s tag [] []
  | shown {id : RecordId} {ids : List RecordId} {v : Version} {vs : List Version}
      (current : Current s tag id v) (rest : Gathered s tag ids vs) :
      Gathered s tag (id :: ids) (v :: vs)
  | skipped {id : RecordId} {ids : List RecordId} {vs : List Version}
      (absent : ∀ v, ¬ Current s tag id v) (rest : Gathered s tag ids vs) :
      Gathered s tag (id :: ids) vs

/-- What a page of up to `first` rows answers where the rows of its tag are `rows`. -/
inductive Sliced (s : Store) (tag : Tag) (rows : List IndexRow) (first : Nat) :
    Option RecordId → Except Error ResultSet → Prop
  | empty {before : Option RecordId} (unlisted : rows = []) :
      Sliced s tag rows first before (.ok ⟨[], ⟨0, false, false, none, none⟩, none⟩)
  | unanchored {id : RecordId} (listed : rows ≠ []) (absent : ∀ row ∈ rows, row.id ≠ id.text) :
      Sliced s tag rows first (some id) (.error (.missing (.anchor tag id)))
  /-- One statement takes only so many ids. -/
  | many {before : Option RecordId} {front back : List IndexRow}
      (split : Split rows before front back)
      (many : Store.maxParameters < (back.take first).length) :
      Sliced s tag rows first before (.error (.store .statement))
  /-- A latest version cannot be decoded. -/
  | spoiled {before : Option RecordId} {front back : List IndexRow} {ids : List RecordId}
      {e : Store.Error} (split : Split rows before front back)
      (few : (back.take first).length ≤ Store.maxParameters)
      (selected : ids.map (·.text) = (back.take first).map (·.id)) (spoiled : Spoiled s ids e) :
      Sliced s tag rows first before (.error (.store e))
  | page {before : Option RecordId} {front back : List IndexRow} {ids : List RecordId}
      {records : List Version} (split : Split rows before front back)
      (few : (back.take first).length ≤ Store.maxParameters)
      (selected : ids.map (·.text) = (back.take first).map (·.id))
      (readable : ∀ id ∈ ids, Readable s id.text) (gathered : Gathered s tag ids records) :
      Sliced s tag rows first before (.ok ⟨records, ⟨rows.length, decide (front ≠ []),
        decide (first < back.length), ids.head?, ids.getLast?⟩, none⟩)

variable {s : Store} {tag : Tag} {rows front back : List IndexRow} {first : Nat}
  {before : Option RecordId} {bound : Int}

theorem Listed.eq (formed : Formed s) (listed : Listed s tag rows) : rows = s.indexRows tag := by
  have same : rows.Perm (s.indexRows tag) := listed.all.trans (Sort.sort_perm _ _).symm
  refine same.eq_of_pairwise (fun a b _ _ less more => ?_) listed.decreasing
    (formed.indexRows_decreasing tag)
  omega

theorem gathered_of_rows (formed : Formed s) {ids : List RecordId} {vs : List Version}
    (words : ∀ v ∈ vs, v.sequence ≤ Word.maxUnsigned)
    (read : vs.map Version.row =
      (ids.filterMap fun id => s.latest? id.text).filter fun r => r.tag == tag.text) :
    Gathered s tag ids vs := by
  induction ids generalizing vs with
  | nil =>
    rw [List.map_eq_nil_iff.mp read]
    exact .nil
  | cons id ids ih =>
    have row_of {v : Version} (current : Current s tag id v) : s.latest? id.text = some v.row :=
      (Store.latest?_eq_some_iff formed.keyed).mpr current.latest
    cases found : s.latest? id.text with
    | none =>
      rw [List.filterMap_cons, found] at read
      refine .skipped (fun v current => ?_) (ih words read)
      rw [row_of current] at found
      cases found
    | some r =>
      rw [List.filterMap_cons, found, List.filter_cons] at read
      by_cases tagged : r.tag = tag.text
      · rw [if_pos (beq_iff_eq.mpr tagged)] at read
        obtain ⟨v, others, rfl, rfl, rest⟩ := List.map_eq_cons_iff.mp read
        obtain ⟨word, words⟩ := List.forall_mem_cons.mp words
        have latest := Store.latest?_latest found
        exact .shown ⟨RecordId.text_injective _ _ latest.names, (Tag.text_inj _ _).mp tagged, word,
          latest⟩ (ih words rest)
      · rw [if_neg (by simpa using tagged)] at read
        refine .skipped (fun v current => tagged ?_) (ih words read)
        rw [row_of current] at found
        cases found
        exact congrArg Tag.text current.tagged

theorem latestInOrder_words {now : Instant} {ids : List RecordId} {vs : List Version}
    (met : (latestInOrder (Store.answer now) ids).outcome s = (.ok vs, s)) :
    ∀ v ∈ vs, v.sequence ≤ Word.maxUnsigned := by
  rw [latestInOrder] at met
  rcases Action.call_bind_cases met with ⟨e, _, failed⟩ | ⟨found, t, answered, rest⟩
  · cases failed
  cases rest
  have read : s.latestVersionsIn ids = .ok found := congrArg Prod.fst answered
  unfold Store.latestVersionsIn at read
  split at read
  · cases read
  intro v member
  obtain ⟨id, _, picked⟩ := List.mem_filterMap.mp member
  exact Store.readVersions_words read v (List.mem_reverse.mp (List.mem_of_find?_eq_some picked))

theorem sliced_of_start (now : Instant) (formed : Formed s) (start : Start s tag before bound)
    (split : Split (s.indexRows tag) before front back) (below : s.rowsBelow tag bound = back)
    (behind : rowsBehind s tag before = back)
    (next : (before.isSome && decide (0 < (s.indexRows tag).countP fun row =>
      decide (bound < row.sequence))) = decide (front ≠ []))
    (positive : 1 ≤ first) (fits : first ≤ Word.maxUnsigned) :
    ∃ answer, (fetch (Store.answer now) tag first before).outcome s = (answer, s) ∧
      Sliced s tag (s.indexRows tag) first before answer := by
  obtain ⟨ids, selected, fetched⟩ := fetch_selected now formed start positive fits
  rw [below] at selected
  have lengths := congrArg List.length selected
  rw [List.length_map, List.length_map] at lengths
  by_cases many : Store.maxParameters < (back.take first).length
  · refine ⟨_, ?_, .many split many⟩
    rw [fetched, Action.outcome_bind, latestInOrder_many now s (by omega)]
  have few := Nat.le_of_not_lt many
  by_cases readable : ∀ id ∈ ids, Readable s id.text
  · obtain ⟨vs, answered, read⟩ :=
      latestInOrder_ok now formed.keyed formed.words ids readable (by omega)
    have distinct : ids.Nodup := by
      rw [← below] at selected
      refine nodup_of_rows formed
        ((formed.rowsBelow_decreasing tag bound).sublist (List.take_sublist first _)) ?_ selected
      exact fun row member => (Store.mem_rowsBelow.mp (List.mem_of_mem_take member)).1
    have info : around s tag before bound ids = ⟨(s.indexRows tag).length, decide (front ≠ []),
        decide (first < back.length), ids.head?, ids.getLast?⟩ := by
      have more : ids.length < back.length ↔ first < back.length := by
        rw [lengths, List.length_take]
        omega
      rw [around_eq, next, behind, decide_eq_decide.mpr more]
    rw [eraseDups_of_nodup distinct] at read
    have gathered : Gathered s tag ids (vs.filter (·.tag = tag)) :=
      gathered_of_rows formed
        (fun v member => latestInOrder_words answered v (List.mem_of_mem_filter member))
        (by rw [rows_filter_tag, read])
    refine ⟨_, ?_, .page split few selected readable gathered⟩
    rw [fetched, Action.outcome_bind_ok answered, info]
    rfl
  · obtain ⟨e, failed, spoiled⟩ := Store.latestVersionsIn_spoiled formed.keyed (by omega) readable
    refine ⟨_, ?_, .spoiled split few selected spoiled⟩
    rw [fetched, Action.outcome_bind, latestInOrder_failed now failed]

/-- A page is the slice of the tag's rows behind its anchor, with the flags and bounds that the
rows around the slice give it, and answering it leaves the store as it is. -/
theorem fetch_slices (now : Instant) (formed : Formed s)
    (room : ∀ row ∈ s.index, row.sequence < Word.maxSigned) (listed : Listed s tag rows)
    (positive : 1 ≤ first) (fits : first ≤ Word.maxUnsigned) (before : Option RecordId) :
    ∃ answer, (fetch (Store.answer now) tag first before).outcome s = (answer, s) ∧
      Sliced s tag rows first before answer := by
  obtain rfl := listed.eq formed
  cases before with
  | none =>
    have room : ∀ row ∈ s.indexRows tag, row.sequence < Word.maxSigned := fun row member =>
      room row (Store.mem_indexRows.mp member).1
    exact sliced_of_start now formed (.newest room) .newest (rowsBelow_all room) rfl rfl positive
      fits
  | some id =>
    by_cases found : ∃ row ∈ s.indexRows tag, row.id = id.text
    · obtain ⟨row, member, names⟩ := found
      obtain ⟨front, back, shape⟩ := List.append_of_mem member
      obtain ⟨stored, tagged⟩ := Store.mem_indexRows.mp member
      obtain ⟨below, above⟩ := formed.around_row shape
      refine sliced_of_start now formed (.behind stored names tagged) (.behind shape names) below
        (by rw [rowsBehind_eq formed stored names, below]) ?_ positive fits
      rw [above, Option.isSome_some, Bool.true_and, decide_eq_decide, List.length_pos_iff]
    · have absent : ∀ row ∈ s.indexRows tag, row.id ≠ id.text := fun row member names =>
        found ⟨row, member, names⟩
      refine ⟨_, fetch_unanchored now positive absent, ?_⟩
      cases shape : s.indexRows tag with
      | nil => exact .empty rfl
      | cons row rest => exact .unanchored (List.cons_ne_nil _ _) (shape ▸ absent)

def scattered (tag : Tag) (id other : RecordId) : Store :=
  ⟨[⟨5, id.text, tag.text, "1", 9⟩, ⟨-3, id.text, tag.text, "2", 9⟩],
    [⟨2, id.text, tag.text⟩, ⟨9223372036854775806, other.text, tag.text⟩], 5, 9223372036854775806⟩

theorem scattered_formed {tag : Tag} {id other : RecordId} (apart : id.text ≠ other.text) :
    Formed (scattered tag id other) where
  versions := by simp [scattered]
  words := by simp [scattered, Word.minSigned, Word.maxSigned]
  index := by simp [scattered]
  bounds := by simp [scattered, Word.maxSigned]
  single := by simp [scattered, apart]
  ids row stored := by
    simp only [scattered, List.mem_cons, List.not_mem_nil, or_false] at stored
    rcases stored with rfl | rfl
    · exact ⟨id, rfl⟩
    · exact ⟨other, rfl⟩

theorem scattered_sliced :
    let tag : Tag := ⟨"app.note", by decide⟩
    let id (octet : UInt8) : RecordId := ⟨List.replicate 16 octet, List.length_replicate⟩
    let s := scattered tag (id 1) (id 2)
    let rows : List IndexRow :=
      [⟨9223372036854775806, (id 2).text, tag.text⟩, ⟨2, (id 1).text, tag.text⟩]
    Formed s ∧ (∀ row ∈ s.index, row.sequence < Word.maxSigned) ∧ Listed s tag rows ∧
      1 ≤ Word.maxUnsigned ∧ Word.maxUnsigned ≤ Word.maxUnsigned ∧
      ∃ answer, (fetch (Store.answer .epoch) tag Word.maxUnsigned (some (id 2))).outcome s =
        (answer, s) ∧ Sliced s tag rows Word.maxUnsigned (some (id 2)) answer := by
  intro tag id s rows
  have formed : Formed s := scattered_formed (by decide +kernel)
  have room : ∀ row ∈ s.index, row.sequence < Word.maxSigned := by
    simp [s, scattered, Word.maxSigned]
  have listed : Listed s tag rows := ⟨by
    simp only [s, rows, scattered, List.filter_cons, BEq.rfl, if_true, List.filter_nil]
    exact .swap _ _ _, by simp [rows]⟩
  have positive : 1 ≤ Word.maxUnsigned := by decide
  exact ⟨formed, room, listed, positive, Nat.le_refl _,
    fetch_slices .epoch formed room listed positive (Nat.le_refl _) (some (id 2))⟩

def mislabelled (tag : Tag) (id : RecordId) : Store :=
  ⟨[⟨1, id.text, "", "1", 0⟩], [⟨1, id.text, tag.text⟩], 1, 1⟩

/-- The one selected id has no current version to show, and still there is no page without it: the
version under no tag cannot be decoded. -/
theorem mislabelled_spoils_page :
    let tag : Tag := ⟨"app.note", by decide⟩
    let id : RecordId := default
    let s := mislabelled tag id
    Formed s ∧ (∀ row ∈ s.index, row.sequence < Word.maxSigned) ∧ Listed s tag s.index ∧
      Gathered s tag [id] [] ∧
      (fetch (Store.answer .epoch) tag 1 none).outcome s =
        (.error (.store (.corruptRow 1 "invalid data type \"\": must not be empty")), s) := by
  intro tag id s
  have formed : Formed s :=
    { versions := by simp [s, mislabelled]
      words := by simp [s, mislabelled, Word.minSigned, Word.maxSigned]
      index := by simp [s, mislabelled]
      bounds := by simp [s, mislabelled, Word.maxSigned]
      single := by simp [s, mislabelled]
      ids := by simp [s, mislabelled] }
  have room : ∀ row ∈ s.index, row.sequence < Word.maxSigned := by
    simp [s, mislabelled, Word.maxSigned]
  have listed : Listed s tag s.index := ⟨by simp [s, mislabelled], by simp [s, mislabelled]⟩
  have absent : ∀ v, ¬ Current s tag id v := by
    intro v current
    have unnamed : v.row.tag = "" := by
      have stored := current.latest.stored
      rw [List.mem_singleton.mp stored]
    have named : v.row.tag = "app.note" := congrArg Tag.text current.tagged
    exact absurd (unnamed.symm.trans named) (by decide)
  refine ⟨formed, room, listed, .skipped absent .nil, ?_⟩
  have roomy : ∀ row ∈ s.indexRows tag, row.sequence < Word.maxSigned := fun row member =>
    room row (Store.mem_indexRows.mp member).1
  obtain ⟨ids, selected, fetched⟩ :=
    fetch_selected .epoch formed (.newest roomy) (Nat.le_refl 1) (by decide)
  have shown : ((s.rowsBelow tag Word.maxSigned).take 1).map (·.id) = [id.text] := by decide +kernel
  obtain rfl : ids = [id] := texts_inj (selected.trans shown)
  have failed : s.latestVersionsIn [id] =
      .error (.corruptRow 1 "invalid data type \"\": must not be empty") := by decide +kernel
  rw [fetched, Action.outcome_bind, latestInOrder_failed .epoch failed]

end RecordLedger.Ledger
