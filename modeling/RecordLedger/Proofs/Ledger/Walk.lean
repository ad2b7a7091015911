import RecordLedger.Proofs.Ledger.Growth

/-! Walks over the pages of a tag: each page starts behind the end of the one before, and any
operations take place between two pages. The row of a page's end stays while nothing deletes that
record, and rows that are added later have greater numbers, so a walk goes down the rows that were
there when it began. -/
namespace RecordLedger.Ledger

open Store (Latest Live Sound Backed IndexRow)

/-- A page of a walk as it took place, and the operations between it and the next one. -/
structure Leaf : Type 1 where
  now : Instant
  first : Nat
  before : Option RecordId
  store : Store
  outcome : Except Error ResultSet
  after : Store
  interlude : List Event

namespace Leaf

/-- The page is what a fetch makes of the store. It has at least one place and, in its store, no
more rows than a statement takes parameters. -/
structure Met (tag : Tag) (l : Leaf) : Prop where
  met : (fetch (Store.answer l.now) tag l.first l.before).outcome l.store = (l.outcome, l.after)
  positive : 1 ≤ l.first
  fits : l.first ≤ Word.maxUnsigned
  few : min l.first (rowsBehind l.store tag l.before).length ≤ Store.maxParameters

def ids (l : Leaf) : List RecordId :=
  match l.outcome with
  | .ok page => page.remaining.map (·.id)
  | .error _ => []

def rows (l : Leaf) : List IndexRow :=
  l.ids.filterMap fun id => l.store.index.find? fun row => row.id == id.text

def Final (l : Leaf) : Prop := ∃ page, l.outcome = .ok page ∧ page.page.hasPrevious = false

end Leaf

/-- Pages from a store on, the first one behind `before`. No deletion of the record that ends a page
is appended before the next page. -/
inductive Walk (tag : Tag) : Option RecordId → Store → List Leaf → Prop
  | last {l : Leaf} (met : l.Met tag) (done : l.interlude = []) : Walk tag l.before l.store [l]
  | next {l : Leaf} {page : ResultSet} {id : RecordId} {u : Store} {leaves : List Leaf}
      (met : l.Met tag) (shown : l.outcome = .ok page) (ended : page.page.endId = some id)
      (run : Run l.after l.interlude u)
      (spared : ∀ r ∈ u.versions, r.id = id.text → r.payload = tombstone → r ∈ l.after.versions)
      (rest : Walk tag (some id) u leaves) : Walk tag l.before l.store (l :: leaves)

def visited (leaves : List Leaf) : List Store :=
  leaves.flatMap fun l => l.store :: l.interlude.map (·.after)

def LiveUnder (tag : Tag) (s : Store) (id : RecordId) : Prop :=
  ∃ r, Latest s id.text r ∧ r.payload ≠ tombstone ∧ r.tag = tag.text

theorem Consistent.lists (valid : Consistent s) {id : RecordId} (live : LiveUnder tag s id) :
    s.isIndexed id.text = true := by
  obtain ⟨r, latest, alive, _⟩ := live
  exact (valid.indexed id.text).mpr ⟨r, latest, alive⟩

section Decreasing

variable {rows : List IndexRow} {e row : IndexRow} {k : Nat}
  (decreasing : rows.Pairwise fun a b => b.sequence < a.sequence)
include decreasing

theorem last_least (last : rows.getLast? = some e) (member : row ∈ rows) :
    e.sequence ≤ row.sequence := by
  obtain ⟨front, shape⟩ := List.getLast?_eq_some_iff.mp last
  rw [shape] at member decreasing
  rcases List.mem_append.mp member with early | late
  · have := (List.pairwise_append.mp decreasing).2.2 row early e List.mem_cons_self
    omega
  · exact Int.le_of_eq (congrArg IndexRow.sequence (List.mem_singleton.mp late)).symm

theorem drop_below (taken : e ∈ rows.take k) (left : row ∈ rows.drop k) :
    row.sequence < e.sequence := by
  rw [← List.take_append_drop k rows] at decreasing
  exact (List.pairwise_append.mp decreasing).2.2 e taken row left

/-- What lies below the last of the first rows are the other rows. -/
theorem filter_below (last : (rows.take k).getLast? = some e) :
    rows.filter (fun row => decide (row.sequence < e.sequence)) = rows.drop k := by
  have taken : (rows.take k).filter (fun row => decide (row.sequence < e.sequence)) = [] := by
    refine List.filter_eq_nil_iff.mpr fun row member => ?_
    have := last_least (decreasing.sublist (List.take_sublist k rows)) last member
    simpa using this
  have left : (rows.drop k).filter (fun row => decide (row.sequence < e.sequence)) = rows.drop k :=
    List.filter_eq_self.mpr fun row member =>
      decide_eq_true (drop_below decreasing (List.mem_of_getLast? last) member)
  calc rows.filter (fun row => decide (row.sequence < e.sequence))
      = (rows.take k ++ rows.drop k).filter (fun row => decide (row.sequence < e.sequence)) := by
        rw [List.take_append_drop]
    _ = rows.drop k := by rw [List.filter_append, taken, left, List.nil_append]

end Decreasing

theorem filterMap_filter_map {f : α → Option β} {p : β → Bool} {g : β → γ} {h : α → γ}
    (xs : List α) (each : ∀ x ∈ xs, ∃ y, f x = some y ∧ p y = true ∧ g y = h x) :
    ((xs.filterMap f).filter p).map g = xs.map h := by
  induction xs with
  | nil => rfl
  | cons x xs ih =>
    obtain ⟨y, found, passes, same⟩ := each x List.mem_cons_self
    rw [List.filterMap_cons_some found, List.filter_cons_of_pos passes, List.map_cons,
      List.map_cons, same, ih fun z member => each z (List.mem_cons_of_mem x member)]

/-- The records of a page are those of the rows that it was made of. -/
theorem Paged.ids {s : Store} {tag : Tag} {before : Option RecordId} {bound : Int} {first : Nat}
    {ids : List RecordId} {page : ResultSet} (paged : Paged s tag before bound first ids page)
    (backed : Backed s) : page.remaining.map (·.id) = ids := by
  apply texts_inj
  have texts : page.remaining.map (fun v => v.id.text) =
      (page.remaining.map Version.row).map fun r => r.id := by rw [List.map_map]; rfl
  have selected : ids.filterMap (fun id => s.latest? id.text) =
      ((s.rowsBelow tag bound).take first).filterMap fun row => s.latest? row.id := by
    have through := congrArg (List.filterMap fun text => s.latest? text) paged.selected
    rwa [List.filterMap_map, List.filterMap_map] at through
  rw [List.map_map]
  refine Eq.trans texts ?_
  rw [paged.records, selected, paged.selected]
  refine filterMap_filter_map _ fun row member => ?_
  obtain ⟨stored, tagged, _⟩ := Store.mem_rowsBelow.mp (List.mem_of_mem_take member)
  obtain ⟨r, latest, _, same⟩ := backed.rows row stored
  refine ⟨r, (Store.latest?_eq_some_iff backed.sound.keyed).mpr latest, ?_, latest.names⟩
  rw [beq_iff_eq, same, tagged]

theorem find_row {s : Store} {row : IndexRow} (sound : Sound s) (stored : row ∈ s.index) :
    (s.index.find? fun other => other.id == row.id) = some row := by
  refine Store.find?_eq_some stored (by simp) fun other listed names => ?_
  exact sound.keyed.row_unique listed stored (beq_iff_eq.mp names)

theorem Start.length_le {s : Store} {tag : Tag} {before : Option RecordId} {bound : Int}
    (start : Start s tag before bound) (sound : Sound s) :
    (s.rowsBelow tag bound).length ≤ (rowsBehind s tag before).length := by
  cases start with
  | newest => exact List.length_filter_le _ _
  | wrapped => exact List.length_filter_le _ _
  | behind stored names =>
    exact Nat.le_of_eq (congrArg List.length (rowsBehind_eq sound.formed stored names).symm)

structure Leaf.Shows (tag : Tag) (bound : Int) (l : Leaf) (page : ResultSet) : Prop where
  shown : l.outcome = .ok page
  after : l.after = l.store
  rows : l.rows = (l.store.rowsBelow tag bound).take l.first
  ids : l.ids.map (·.text) = l.rows.map (·.id)
  endId : page.page.endId = l.ids.getLast?
  hasPrevious : page.page.hasPrevious =
    decide (l.rows.length < (rowsBehind l.store tag l.before).length)

theorem Leaf.Met.shows {tag : Tag} {l : Leaf} {bound : Int} {turns : List Turn} (met : l.Met tag)
    (session : Session turns l.store) (start : Start l.store tag l.before bound) :
    ∃ page, l.Shows tag bound page := by
  have sound := session.backed.sound
  have few : ((l.store.rowsBelow tag bound).take l.first).length ≤ Store.maxParameters := by
    have := start.length_le sound
    have := met.few
    rw [List.length_take]
    omega
  obtain ⟨page, ids, answered, paged⟩ :=
    fetch_answer l.now sound.formed (fun row _ => session.readable row.id) start met.positive
      met.fits few
  obtain ⟨shown, after⟩ := Prod.mk.inj (met.met.symm.trans answered)
  have same : l.ids = ids := by rw [Leaf.ids, shown]; exact paged.ids session.backed
  have rows : l.rows = (l.store.rowsBelow tag bound).take l.first := by
    have through := congrArg
      (List.filterMap fun text => l.store.index.find? fun row => row.id == text) paged.selected
    rw [List.filterMap_map, List.filterMap_map] at through
    rw [Leaf.rows, same]
    refine through.trans ?_
    have kept := filterMap_filter_map (p := fun _ => true) (g := id) (h := id)
      (f := fun row : IndexRow => l.store.index.find? fun other => other.id == row.id)
      ((l.store.rowsBelow tag bound).take l.first) fun row member =>
        ⟨row, find_row sound (Store.mem_rowsBelow.mp (List.mem_of_mem_take member)).1, rfl, rfl⟩
    simpa using kept
  refine ⟨page, shown, after, rows, by rw [same, rows, paged.selected],
    by rw [same, paged.info, around_eq], ?_⟩
  have lengths := congrArg List.length paged.selected
  rw [List.length_map, List.length_map, ← rows] at lengths
  rw [paged.info, around_eq, lengths]

/-- The rows of a page are rows of its store, in decreasing order. -/
theorem Leaf.Shows.decreasing {tag : Tag} {bound : Int} {l : Leaf} {page : ResultSet}
    (shows : l.Shows tag bound page) (sound : Sound l.store) :
    l.rows.Pairwise fun a b => b.sequence < a.sequence := by
  rw [shows.rows]
  exact (sound.formed.rowsBelow_decreasing tag bound).sublist (List.take_sublist _ _)

theorem Leaf.Shows.row_mem {tag : Tag} {bound : Int} {l : Leaf} {page : ResultSet} {row : IndexRow}
    (shows : l.Shows tag bound page) (member : row ∈ l.rows) :
    row ∈ l.store.index ∧ row.tag = tag.text ∧ row.sequence < bound := by
  rw [shows.rows] at member
  exact Store.mem_rowsBelow.mp (List.mem_of_mem_take member)

theorem Leaf.Met.shows_of {tag : Tag} {l : Leaf} {bound : Int} {page : ResultSet}
    {turns : List Turn} (met : l.Met tag) (session : Session turns l.store)
    (start : Start l.store tag l.before bound) (shown : l.outcome = .ok page) :
    l.Shows tag bound page := by
  obtain ⟨same, shows⟩ := met.shows session start
  obtain rfl : same = page := Except.ok.inj (shows.shown.symm.trans shown)
  exact shows

variable {s u : Store} {tag : Tag} {before : Option RecordId} {bound : Int} {l : Leaf}
  {leaves : List Leaf} {page : ResultSet} {id : RecordId} {row : IndexRow} {turns : List Turn}

theorem Walk.start_visited (walk : Walk tag before s leaves) : s ∈ visited leaves := by
  cases walk <;> exact List.mem_flatMap.mpr ⟨_, List.mem_cons_self, List.mem_cons_self⟩

theorem Walk.ne_nil (walk : Walk tag before s leaves) : leaves ≠ [] := by
  cases walk <;> exact List.cons_ne_nil _ _

/-- The row that ends a page is still there when the next page starts behind it. -/
theorem Leaf.Shows.next (shows : l.Shows tag bound page) (session : Session turns l.store)
    (ended : page.page.endId = some id) (run : Run l.after l.interlude u)
    (spared : ∀ r ∈ u.versions, r.id = id.text → r.payload = tombstone → r ∈ l.after.versions) :
    ∃ e, l.rows.getLast? = some e ∧ e ∈ l.store.index ∧ e ∈ u.index ∧ e.id = id.text ∧
      e.tag = tag.text ∧ e.sequence < bound := by
  have ends : (l.rows.map (·.id)).getLast? = some id.text := by
    rw [← shows.ids, List.getLast?_map, ← shows.endId, ended]
    rfl
  rw [List.getLast?_map, Option.map_eq_some_iff] at ends
  obtain ⟨e, last, names⟩ := ends
  obtain ⟨stored, tagged, below⟩ := shows.row_mem (List.mem_of_getLast? last)
  rw [shows.after] at run spared
  exact ⟨e, last, stored, run.row_kept session stored (names ▸ spared), names, tagged, below⟩

/-- What the pages of a walk show, seen from the store of the first one. -/
structure Descends (s : Store) (bound : Int) (leaves : List Leaf) : Prop where
  succeeds : ∀ l ∈ leaves, ∃ page, l.outcome = .ok page
  placed : ∀ l ∈ leaves, l.ids.map (·.text) = l.rows.map (·.id)
  decreasing : (leaves.flatMap Leaf.rows).Pairwise fun a b => b.sequence < a.sequence
  among : ∀ row ∈ leaves.flatMap Leaf.rows, row ∈ s.index ∧ row.sequence < bound

theorem Walk.descends (walk : Walk tag before s leaves) (session : Session turns s)
    (start : Start s tag before bound) : Descends s bound leaves := by
  induction walk generalizing bound turns with
  | @last l met done =>
    obtain ⟨page, shows⟩ := met.shows session start
    refine ⟨?_, ?_, ?_, ?_⟩
    · simpa using ⟨page, shows.shown⟩
    · simpa using shows.ids
    · rw [List.flatMap_singleton]
      exact shows.decreasing session.backed.sound
    · intro row member
      rw [List.flatMap_singleton] at member
      obtain ⟨stored, _, below⟩ := shows.row_mem member
      exact ⟨stored, below⟩
  | @next l page id u leaves met shown ended run spared rest ih =>
    have shows := met.shows_of session start shown
    obtain ⟨e, last, stored, kept, names, tagged, below⟩ := shows.next session ended run spared
    rw [shows.after] at run
    have later := ih (run.session session) (.behind kept names tagged)
    have decreasing := shows.decreasing session.backed.sound
    refine ⟨?_, ?_, ?_, ?_⟩
    · exact List.forall_mem_cons.mpr ⟨⟨page, shown⟩, later.succeeds⟩
    · exact List.forall_mem_cons.mpr ⟨shows.ids, later.placed⟩
    · rw [List.flatMap_cons]
      refine List.pairwise_append.mpr ⟨decreasing, later.decreasing, fun a here b there => ?_⟩
      exact Int.lt_of_lt_of_le (later.among b there).2 (last_least decreasing last here)
    · intro row member
      rw [List.flatMap_cons] at member
      rcases List.mem_append.mp member with here | there
      · obtain ⟨stored, _, below⟩ := shows.row_mem here
        exact ⟨stored, below⟩
      · obtain ⟨listed, less⟩ := later.among row there
        have used := (session.backed.sound.index_bounds stored).2.1
        rcases run.later.fresh row listed with old | new
        · exact ⟨old, by omega⟩
        · omega

structure Open (s : Store) (tag : Tag) (before : Option RecordId) (bound : Int) : Prop where
  start : Start s tag before bound
  behind : rowsBehind s tag before = s.rowsBelow tag bound

theorem Open.of_room (room : ∀ row ∈ s.indexRows tag, row.sequence < Word.maxSigned) :
    Open s tag none Word.maxSigned := ⟨.newest room, (rowsBelow_all room).symm⟩

theorem Open.of_row (sound : Sound s) (stored : row ∈ s.index) (names : row.id = id.text)
    (tagged : row.tag = tag.text) : Open s tag (some id) row.sequence :=
  ⟨.behind stored names tagged, rowsBehind_eq sound.formed stored names⟩

theorem Leaf.Shows.final_iff (shows : l.Shows tag bound page)
    (opened : Open l.store tag l.before bound) :
    l.Final ↔ (l.store.rowsBelow tag bound).length ≤ l.first := by
  have counted : l.Final ↔ page.page.hasPrevious = false := by
    constructor
    · rintro ⟨other, shown, final⟩
      rwa [Except.ok.inj (shows.shown.symm.trans shown)]
    · exact fun final => ⟨page, shows.shown, final⟩
  rw [counted, shows.hasPrevious, opened.behind, shows.rows, List.length_take,
    decide_eq_false_iff_not]
  omega

theorem Walk.complete (walk : Walk tag before s leaves) (session : Session turns s)
    (opened : Open s tag before bound) (stored : row ∈ s.index) (tagged : row.tag = tag.text)
    (below : row.sequence < bound) (live : ∀ u ∈ visited leaves, Store.Live u row.id)
    (final : ∃ l, leaves.getLast? = some l ∧ l.Final) : row ∈ leaves.flatMap Leaf.rows := by
  induction walk generalizing bound turns with
  | @last l met done =>
    obtain ⟨page, shows⟩ := met.shows session opened.start
    obtain ⟨_, only, final⟩ := final
    cases only
    rw [List.flatMap_singleton, shows.rows,
      List.take_of_length_le ((shows.final_iff opened).mp final)]
    exact Store.mem_rowsBelow.mpr ⟨stored, tagged, below⟩
  | @next l page id u leaves met shown ended run spared rest ih =>
    have shows := met.shows_of session opened.start shown
    obtain ⟨e, last, _, kept, names, taggedE, _⟩ := shows.next session ended run spared
    rw [shows.after] at run
    have after := run.session session
    rw [visited, List.flatMap_cons] at live
    rw [List.flatMap_cons, List.mem_append]
    by_cases here : row ∈ l.rows
    · exact .inl here
    · right
      have member := Store.mem_rowsBelow.mpr ⟨stored, tagged, below⟩
      rw [← List.take_append_drop l.first (l.store.rowsBelow tag bound), ← shows.rows,
        List.mem_append] at member
      have taken := List.mem_of_getLast? last
      rw [shows.rows] at taken
      have lower := drop_below (session.backed.sound.formed.rowsBelow_decreasing tag bound) taken
        (member.resolve_left here)
      have stays : row ∈ u.index := by
        apply run.row_kept_of_live session stored
        intro event among
        apply live event.after
        exact List.mem_append_left _ (List.mem_cons_of_mem _ (List.mem_map_of_mem among))
      refine ih after (.of_row after.backed.sound kept names taggedE) stays lower
        (fun w later => live w (List.mem_append_right _ later)) ?_
      rwa [List.getLast?_cons_of_ne_nil rest.ne_nil] at final

end RecordLedger.Ledger
