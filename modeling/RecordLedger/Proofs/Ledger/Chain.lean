import RecordLedger.Proofs.Ledger.Cover
import RecordLedger.Proofs.Ledger.Likeness

/-! Pages that follow one another in one store, each with a size of its own. They show the rows of
the tag from the newest on, as many as their sizes ask for, and fail where the latest version of one
of those rows cannot be read. -/
namespace RecordLedger.Ledger

open Store (Latest Sound IndexRow Legible)

/-- Each page begins behind the end of the one before it. The last one says that no rows are left,
names no end, or takes the last size. -/
def chained [Monad m] (page : Nat → Option RecordId → m π) (info : π → PageInfo) :
    List Nat → Option RecordId → m (List π)
  | [], _ => pure []
  | first :: sizes, before => do
    let here ← page first before
    match (info here).hasPrevious, (info here).endId with
    | true, some id => return here :: (← chained page info sizes (some id))
    | _, _ => return [here]

def walk (b : Store.Backend σ) (tag : Tag) (sizes : List Nat) (before : Option RecordId) :
    Action σ (List ResultSet) :=
  chained (fetch b tag) ResultSet.page sizes before

/-- Every page has a place, and no more places than a statement takes parameters. -/
def Sized (sizes : List Nat) : Prop := ∀ k ∈ sizes, 1 ≤ k ∧ k ≤ Store.maxParameters

structure Ample (n : Nat) (sizes : List Nat) : Prop where
  sized : Sized sizes
  nonempty : sizes ≠ []
  enough : n ≤ sizes.sum

/-- The page was made of the ids: it shows their latest versions as far as those have the tag. -/
structure Holds (s : Store) (tag : Tag) (ids : List RecordId) (page : ResultSet) : Prop where
  records : page.remaining.map Version.row =
    (ids.filterMap fun id => s.latest? id.text).filter fun r => r.tag == tag.text
  total : page.page.total = (s.indexRows tag).length
  startId : page.page.startId = ids.head?
  endId : page.page.endId = ids.getLast?

variable {s t : Store} {tag : Tag} {before : Option RecordId} {bound : Int} {k : Nat}
  {sizes : List Nat} {pages : List ResultSet} {now : Instant}

/-- A page that succeeds has read the latest versions of all its rows. -/
theorem fetch_legible {page : ResultSet} (now : Instant) (sound : Sound s)
    (start : Start s tag before bound) (positive : 0 < k) (fits : k ≤ Word.maxUnsigned)
    (met : (fetch (Store.answer now) tag k before).outcome s = (.ok page, t)) :
    ∀ row ∈ (s.rowsBelow tag bound).take k, Legible s row.id := by
  obtain ⟨ids, selected, fetched⟩ := fetch_selected now sound.formed start positive fits
  rw [fetched] at met
  rcases Action.bind_cases met with ⟨e, _, failed⟩ | ⟨vs, u, read, _⟩
  · cases failed
  rw [latestInOrder] at read
  rcases Action.call_bind_cases read with ⟨e, _, failed⟩ | ⟨found, u, answered, _⟩
  · cases failed
  intro row member
  have named : row.id ∈ ids.map (·.text) := by
    rw [selected]
    exact List.mem_map_of_mem member
  obtain ⟨id, asked, names⟩ := List.mem_map.mp named
  exact names ▸
    Store.latestVersionsIn_legible sound.formed.keyed (congrArg Prod.fst answered) id asked

theorem Paged.holds {ids : List RecordId} {page : ResultSet}
    (paged : Paged s tag before bound k ids page) : Holds s tag ids page :=
  ⟨paged.records, by rw [paged.info, around_eq], by rw [paged.info, around_eq],
    by rw [paged.info, around_eq]⟩

/-- One page of a walk, and how the walk goes on behind it. -/
theorem walk_step (now : Instant) (sound : Sound s) (opened : Open s tag before bound)
    (size : 1 ≤ k ∧ k ≤ Store.maxParameters)
    (legible : ∀ row ∈ (s.rowsBelow tag bound).take k, Legible s row.id) :
    ∃ page ids, ids.map (·.text) = ((s.rowsBelow tag bound).take k).map (·.id) ∧
      Holds s tag ids page ∧
      page.page.hasPrevious = decide (k < (s.rowsBelow tag bound).length) ∧
      (((s.rowsBelow tag bound).length ≤ k ∧ ∀ sizes,
          (walk (Store.answer now) tag (k :: sizes) before).outcome s = (.ok [page], s)) ∨
        (k < (s.rowsBelow tag bound).length ∧ ∃ id e, Open s tag (some id) e ∧
          s.rowsBelow tag e = (s.rowsBelow tag bound).drop k ∧ ∀ sizes,
          (walk (Store.answer now) tag (k :: sizes) before).outcome s =
            (walk (Store.answer now) tag sizes (some id) >>= fun pages =>
              pure (page :: pages)).outcome s)) := by
  have few : ((s.rowsBelow tag bound).take k).length ≤ Store.maxParameters := by
    rw [List.length_take]
    omega
  have fits : k ≤ Word.maxUnsigned := Nat.le_trans size.2 (by decide)
  obtain ⟨page, ids, answered, paged⟩ := fetch_answer now sound.formed
    (fun row member => (legible row member).readable sound) opened.start size.1 fits few
  have lengths := congrArg List.length paged.selected
  rw [List.length_map, List.length_map, List.length_take] at lengths
  have previous : page.page.hasPrevious = decide (k < (s.rowsBelow tag bound).length) := by
    rw [paged.info, around_eq, opened.behind, Bool.eq_iff_iff, decide_eq_true_iff, decide_eq_true_iff]
    omega
  refine ⟨page, ids, paged.selected, paged.holds, previous, ?_⟩
  by_cases more : k < (s.rowsBelow tag bound).length
  · right
    have some_row : (s.rowsBelow tag bound).take k ≠ [] :=
      List.ne_nil_of_length_pos (by rw [List.length_take]; omega)
    have last := List.getLast?_eq_some_getLast some_row
    generalize ((s.rowsBelow tag bound).take k).getLast some_row = e at last
    have ended := congrArg List.getLast? paged.selected
    rw [List.getLast?_map, List.getLast?_map, last] at ended
    obtain ⟨id, ended, names⟩ := Option.map_eq_some_iff.mp ended
    obtain ⟨stored, tagged, _⟩ :=
      Store.mem_rowsBelow.mp (List.mem_of_mem_take (List.mem_of_getLast? last))
    refine ⟨more, id, e.sequence, .of_row sound stored names.symm tagged, rowsBelow_last sound last,
      fun sizes => ?_⟩
    have endId : page.page.endId = some id := by rw [paged.info, around_eq]; exact ended
    rw [walk, chained, Action.outcome_bind_ok answered, previous, decide_eq_true more, endId]
    rfl
  · left
    refine ⟨Nat.le_of_not_lt more, fun sizes => ?_⟩
    rw [walk, chained, Action.outcome_bind_ok answered, previous, decide_eq_false more]
    rfl

/-- The first page of a walk that succeeds, and the pages behind it. -/
theorem walk_cons_cases (met : (walk (Store.answer now) tag (k :: sizes) before).outcome s =
    (.ok pages, t)) :
    ∃ page, (fetch (Store.answer now) tag k before).outcome s = (.ok page, s) ∧
      ((∃ id rest, page.page.hasPrevious = true ∧ page.page.endId = some id ∧
          (walk (Store.answer now) tag sizes (some id)).outcome s = (.ok rest, t) ∧
          pages = page :: rest) ∨
        (page.page.hasPrevious = false ∨ page.page.endId = none) ∧ pages = [page] ∧ t = s) := by
  rw [walk, chained] at met
  rcases Action.bind_cases met with ⟨e, _, failed⟩ | ⟨page, u, answered, rest⟩
  · cases failed
  obtain rfl : u = s := by
    have kept : ((fetch (Store.answer now) tag k before).outcome s).2 = s :=
      keeps_reading now (.fetch tag k before) trivial s
    rwa [answered] at kept
  refine ⟨page, answered, ?_⟩
  cases previous : page.page.hasPrevious with
  | false =>
    rw [previous] at rest
    cases rest
    exact .inr ⟨.inl rfl, rfl, rfl⟩
  | true =>
    cases ended : page.page.endId with
    | none =>
      rw [previous, ended] at rest
      cases rest
      exact .inr ⟨.inr rfl, rfl, rfl⟩
    | some id =>
      rw [previous, ended] at rest
      rcases Action.bind_cases rest with ⟨e, _, failed⟩ | ⟨pages, u, others, last⟩
      · cases failed
      · cases last
        exact .inl ⟨id, pages, rfl, rfl, others, rfl⟩

/-- What holds of every page that succeeds holds of the pages of a walk. -/
theorem walk_forall {P : ResultSet → Prop}
    (each : ∀ k before page, (fetch (Store.answer now) tag k before).outcome s = (.ok page, s) →
      P page)
    (met : (walk (Store.answer now) tag sizes before).outcome s = (.ok pages, t)) :
    ∀ page ∈ pages, P page := by
  induction sizes generalizing before pages with
  | nil =>
    cases met
    exact fun page member => absurd member List.not_mem_nil
  | cons k sizes ih =>
    obtain ⟨page, answered, ⟨id, rest, _, _, others, rfl⟩ | ⟨_, rfl, _⟩⟩ := walk_cons_cases met
    · exact List.forall_mem_cons.mpr ⟨each k before page answered, ih others⟩
    · exact List.forall_mem_singleton.mpr (each k before page answered)

theorem take_sum_cons {rows : List α} (k : Nat) (sizes : List Nat) :
    rows.take (k :: sizes).sum = rows.take k ++ (rows.drop k).take sizes.sum := by
  rw [List.sum_cons, List.take_add]

/-- Pages show the first rows, as many as they have places for, and the last one says whether there
are more. -/
theorem walk_shows (now : Instant) (sound : Sound s) (opened : Open s tag before bound)
    (sized : Sized sizes)
    (legible : ∀ row ∈ (s.rowsBelow tag bound).take sizes.sum, Legible s row.id) :
    ∃ pages blocks, (walk (Store.answer now) tag sizes before).outcome s = (.ok pages, s) ∧
      blocks.flatten.map (·.text) = ((s.rowsBelow tag bound).take sizes.sum).map (·.id) ∧
      List.Forall₂ (Holds s tag) blocks pages ∧
      (sizes ≠ [] → ∃ last, pages.getLast? = some last ∧
        last.page.hasPrevious = decide (sizes.sum < (s.rowsBelow tag bound).length)) := by
  induction sizes generalizing before bound with
  | nil => exact ⟨[], [], rfl, by simp, .nil, fun none => absurd rfl none⟩
  | cons k sizes ih =>
    obtain ⟨size, sized⟩ := List.forall_mem_cons.mp sized
    rw [take_sum_cons] at legible ⊢
    obtain ⟨page, ids, selected, holds, previous, goes⟩ := walk_step now sound opened size
      fun row member => legible row (List.mem_append_left _ member)
    rcases goes with ⟨enough, met⟩ | ⟨more, id, e, behind, left, met⟩
    · refine ⟨[page], [ids], met sizes, ?_, .cons holds .nil, fun _ => ⟨page, rfl, ?_⟩⟩
      · rw [List.drop_of_length_le enough, List.take_nil, List.append_nil, ← selected]
        simp
      · rw [previous, List.sum_cons, decide_eq_false (by omega), decide_eq_false (by omega)]
    · obtain ⟨pages, blocks, rest, texts, held, last⟩ := ih behind sized fun row member =>
        legible row (List.mem_append_right _ (left ▸ member))
      refine ⟨page :: pages, ids :: blocks, ?_, ?_, .cons holds held, fun _ => ?_⟩
      · rw [met, Action.outcome_bind_ok rest]
        rfl
      · rw [List.flatten_cons, List.map_append, List.map_append, selected, texts, left]
      · cases sizes with
        | nil =>
          cases rest
          exact ⟨page, rfl, previous⟩
        | cons first others =>
          obtain ⟨final, ends, said⟩ := last (List.cons_ne_nil _ _)
          refine ⟨final, by rw [List.getLast?_cons, ends]; rfl, ?_⟩
          rw [said, left, List.length_drop, Bool.eq_iff_iff, decide_eq_true_iff,
            decide_eq_true_iff, List.sum_cons (a := k)]
          omega

/-- A walk that succeeds has read the latest versions of all its rows. -/
theorem walk_legible (now : Instant) (sound : Sound s) (opened : Open s tag before bound)
    (sized : Sized sizes)
    (met : (walk (Store.answer now) tag sizes before).outcome s = (.ok pages, t)) :
    ∀ row ∈ (s.rowsBelow tag bound).take sizes.sum, Legible s row.id := by
  induction sizes generalizing before bound pages t with
  | nil => simp
  | cons k sizes ih =>
    obtain ⟨size, sized⟩ := List.forall_mem_cons.mp sized
    have fits : k ≤ Word.maxUnsigned := Nat.le_trans size.2 (by decide)
    have first : ∀ row ∈ (s.rowsBelow tag bound).take k, Legible s row.id := by
      rw [walk, chained] at met
      rcases Action.bind_cases met with ⟨e, _, failed⟩ | ⟨page, u, answered, _⟩
      · cases failed
      · exact fetch_legible now sound opened.start size.1 fits answered
    rw [take_sum_cons]
    obtain ⟨page, ids, selected, holds, previous, goes⟩ := walk_step now sound opened size first
    intro row member
    rcases List.mem_append.mp member with here | there
    · exact first row here
    · rcases goes with ⟨enough, _⟩ | ⟨more, id, e, behind, left, continued⟩
      · rw [List.drop_of_length_le enough, List.take_nil] at there
        cases there
      · rw [continued] at met
        rcases Action.bind_cases met with ⟨e, _, failed⟩ | ⟨pages, u, rest, _⟩
        · cases failed
        · exact ih behind sized rest row (left ▸ there)

def shown (pages : List ResultSet) : List Version := pages.flatMap (·.remaining)

section Shown

variable {blocks : List (List RecordId)} (held : List.Forall₂ (Holds s tag) blocks pages)
include held

theorem holds_of_mem {page : ResultSet} (member : page ∈ pages) :
    ∃ ids ∈ blocks, Holds s tag ids page := by
  induction held with
  | nil => cases member
  | cons holds _ ih =>
    rcases List.mem_cons.mp member with rfl | member
    · exact ⟨_, List.mem_cons_self, holds⟩
    · obtain ⟨ids, among, holds⟩ := ih member
      exact ⟨ids, List.mem_cons_of_mem _ among, holds⟩

theorem shown_rows : (shown pages).map Version.row =
    (blocks.flatten.filterMap fun id => s.latest? id.text).filter fun r => r.tag == tag.text := by
  induction held with
  | nil => rfl
  | cons holds _ ih =>
    rw [shown, List.flatMap_cons, List.map_append, ← shown, ih, holds.records, List.flatten_cons,
      List.filterMap_append, List.filter_append]

theorem shown_latest (sound : Sound s) {v : Version} (member : v ∈ shown pages) :
    v.id ∈ blocks.flatten ∧ v.tag = tag ∧ Latest s v.id.text v.row := by
  have among := List.mem_map_of_mem (f := Version.row) member
  rw [shown_rows held, List.mem_filter, beq_iff_eq] at among
  obtain ⟨⟨id, asked, found⟩, tagged⟩ := And.imp_left List.mem_filterMap.mp among
  have latest := (Store.latest?_eq_some_iff sound.keyed).mp found
  have names : v.id = id := RecordId.text_injective _ _ latest.names
  exact ⟨names ▸ asked, (Tag.text_inj _ _).mp tagged, names ▸ latest⟩

/-- Where the latest versions of all ids have the tag, the pages show all of them. -/
theorem shown_ids (sound : Sound s)
    (under : ∀ id ∈ blocks.flatten, ∃ r, Latest s id.text r ∧ r.tag = tag.text) :
    (shown pages).map (·.id) = blocks.flatten := by
  apply texts_inj
  have texts : ((shown pages).map (·.id)).map (·.text) =
      ((shown pages).map Version.row).map fun r => r.id := by
    rw [List.map_map, List.map_map]
    rfl
  rw [texts, shown_rows held]
  refine filterMap_filter_map _ fun id asked => ?_
  obtain ⟨r, latest, tagged⟩ := under id asked
  have found := (Store.latest?_eq_some_iff sound.keyed).mpr latest
  exact ⟨r, found, beq_iff_eq.mpr tagged, latest.names⟩

theorem shown_ids_live (sound : Sound s) (live : ∀ id ∈ blocks.flatten, LiveUnder tag s id) :
    (shown pages).map (·.id) = blocks.flatten := by
  refine shown_ids held sound fun id asked => ?_
  obtain ⟨r, latest, _, tagged⟩ := live id asked
  exact ⟨r, latest, tagged⟩

/-- If as many records are shown as ids were asked for, none was left out. -/
theorem under_of_length (sound : Sound s) (all : (shown pages).length = blocks.flatten.length) :
    ∀ id ∈ blocks.flatten, ∃ r, Latest s id.text r ∧ r.tag = tag.text := by
  intro id asked
  have lengths := congrArg List.length (shown_rows held)
  rw [List.length_map, all, List.filter_filterMap] at lengths
  have each := List.filterMap_length_eq_length.mp lengths.symm id asked
  obtain ⟨r, found⟩ := Option.isSome_iff_exists.mp each
  obtain ⟨latest, tagged⟩ := Option.filter_eq_some_iff.mp found
  exact ⟨r, (Store.latest?_eq_some_iff sound.keyed).mp latest, beq_iff_eq.mp tagged⟩

end Shown

end RecordLedger.Ledger
