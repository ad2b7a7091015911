import Mathlib.Data.List.Nodup
import RecordLedger.Proofs.Ledger.Likeness
import RecordLedger.Proofs.Ledger.Numbers
import RecordLedger.Proofs.Ledger.Walk

/-! Which records walks reach. A walk to the end shows every record that was live all the time,
once, as long as each has an index row and the walk can start: a page in front of all rows asks for
the numbers below one more than the newest, and behind the greatest number there is none. -/
namespace RecordLedger.Ledger

open Store (Sound Backed IndexRow)

variable {s u : Store} {tag : Tag} {before : Option RecordId} {bound : Int} {l : Leaf}
  {leaves : List Leaf} {page : ResultSet} {id : RecordId} {row : IndexRow} {turns : List Turn}

def Still (k : Nat) (leaves : List Leaf) : Prop := ∀ l ∈ leaves, l.interlude = [] ∧ l.first = k

/-- The last page is the first one that says nothing is left. -/
def Stops (leaves : List Leaf) : Prop :=
  ∃ front l, leaves = front ++ [l] ∧ l.Final ∧ ∀ m ∈ front, ¬ m.Final

theorem Stops.final (stops : Stops [l]) : l.Final := by
  obtain ⟨front, last, shape, final, _⟩ := stops
  have only : last ∈ [l] := by rw [shape]; simp
  rwa [← List.mem_singleton.mp only]

theorem stops_cons (nonempty : leaves ≠ []) : Stops (l :: leaves) ↔ ¬ l.Final ∧ Stops leaves := by
  constructor
  · rintro ⟨front, last, shape, final, others⟩
    cases front with
    | nil => exact absurd (List.cons.inj shape).2 nonempty
    | cons first front =>
      obtain ⟨rfl, rfl⟩ := List.cons.inj shape
      obtain ⟨first, others⟩ := List.forall_mem_cons.mp others
      exact ⟨first, front, last, rfl, final, others⟩
  · rintro ⟨first, front, last, rfl, final, others⟩
    exact ⟨l :: front, last, rfl, final, List.forall_mem_cons.mpr ⟨first, others⟩⟩

def pageCount (n k : Nat) : Nat := max 1 ((n + k - 1) / k)

theorem pageCount_of_le {n k : Nat} (positive : 1 ≤ k) (few : n ≤ k) : pageCount n k = 1 := by
  have small : (n + k - 1) / k ≤ 1 := by
    rw [Nat.div_le_iff_le_mul positive]
    omega
  rw [pageCount]
  omega

theorem pageCount_of_lt {n k : Nat} (positive : 1 ≤ k) (many : k < n) :
    pageCount n k = pageCount (n - k) k + 1 := by
  have rest : 1 ≤ (n - k + k - 1) / k := (Nat.one_le_div_iff positive).mpr (by omega)
  have whole : (n + k - 1) / k = (n - k + k - 1) / k + 1 := by
    rw [← Nat.add_div_right _ positive]
    congr 1
    omega
  rw [pageCount, pageCount, whole]
  omega

/-- Behind the last of the first rows the other rows are left. -/
theorem rowsBelow_last {k : Nat} {e : IndexRow} (sound : Sound s)
    (last : ((s.rowsBelow tag bound).take k).getLast? = some e) :
    s.rowsBelow tag e.sequence = (s.rowsBelow tag bound).drop k := by
  obtain ⟨_, _, below⟩ := Store.mem_rowsBelow.mp (List.mem_of_mem_take (List.mem_of_getLast? last))
  rw [← filter_below (sound.formed.rowsBelow_decreasing tag bound) last, Store.rowsBelow,
    Store.rowsBelow, List.filter_filter]
  refine List.filter_congr fun row _ => ?_
  rw [Bool.eq_iff_iff, Bool.and_eq_true, decide_eq_true_iff, decide_eq_true_iff]
  omega

theorem Walk.still {k : Nat} (walk : Walk tag before s leaves) (session : Session turns s)
    (opened : Open s tag before bound) (still : Still k leaves) (stops : Stops leaves) :
    leaves.flatMap Leaf.rows = s.rowsBelow tag bound ∧
      leaves.length = pageCount (s.rowsBelow tag bound).length k := by
  induction walk generalizing bound with
  | @last l met done =>
    obtain ⟨page, shows⟩ := met.shows session opened.start
    have size := (still l List.mem_cons_self).2
    have few := (shows.final_iff opened).mp stops.final
    rw [List.flatMap_singleton, shows.rows, List.take_of_length_le few]
    exact ⟨rfl, (pageCount_of_le (size ▸ met.positive) (size ▸ few)).symm⟩
  | @next l page id u leaves met shown ended run spared rest ih =>
    have shows := met.shows_of session opened.start shown
    obtain ⟨e, last, _, kept, names, tagged, _⟩ := shows.next session ended run spared
    obtain ⟨⟨quiet, size⟩, others⟩ := List.forall_mem_cons.mp still
    obtain ⟨open_end, stops⟩ := (stops_cons rest.ne_nil).mp stops
    rw [shows.final_iff opened] at open_end
    rw [quiet, shows.after] at run
    cases run
    rw [shows.rows] at last
    have sound := session.backed.sound
    have left := rowsBelow_last sound last
    obtain ⟨rows, pages⟩ := ih session (.of_row sound kept names tagged) others stops
    rw [left] at rows pages
    rw [List.length_drop, size] at pages
    rw [size] at open_end
    refine ⟨?_, ?_⟩
    · rw [List.flatMap_cons, rows, shows.rows, List.take_append_drop]
    · rw [List.length_cons, pages]
      exact (pageCount_of_lt (size ▸ met.positive) (by omega)).symm

theorem still_walk {k : Nat} (now : Instant) (session : Session turns s) (positive : 1 ≤ k)
    (fits : k ≤ Word.maxUnsigned) (opened : Open s tag before bound)
    (few : min k (s.rowsBelow tag bound).length ≤ Store.maxParameters) :
    ∃ leaves, Walk tag before s leaves ∧ Still k leaves ∧ Stops leaves := by
  generalize many : (s.rowsBelow tag bound).length = n at few
  induction n using Nat.strongRecOn generalizing before bound with
  | ind n ih =>
    let answer := (fetch (Store.answer now) tag k before).outcome s
    let l : Leaf := ⟨now, k, before, s, answer.1, answer.2, []⟩
    have met : l.Met tag := ⟨rfl, positive, fits, by rw [opened.behind, many]; exact few⟩
    obtain ⟨page, shows⟩ := met.shows session opened.start
    have final := shows.final_iff opened
    rw [many] at final
    by_cases enough : n ≤ k
    · refine ⟨[l], .last met rfl, List.forall_mem_singleton.mpr ⟨rfl, rfl⟩, [], l, rfl,
        final.mpr enough, fun _ other => absurd other List.not_mem_nil⟩
    · have some_row : l.rows ≠ [] := by
        intro none_shown
        have lengths := congrArg List.length (shows.rows.symm.trans none_shown)
        rw [List.length_take, many, List.length_nil] at lengths
        have none_taken : min k n = 0 := lengths
        omega
      have last := List.getLast?_eq_some_getLast some_row
      generalize l.rows.getLast some_row = e at last
      obtain ⟨id, ended, names⟩ : ∃ id, l.ids.getLast? = some id ∧ e.id = id.text := by
        have ends := congrArg List.getLast? shows.ids
        rw [List.getLast?_map, List.getLast?_map, last] at ends
        obtain ⟨id, ended, names⟩ := Option.map_eq_some_iff.mp ends
        exact ⟨id, ended, names.symm⟩
      obtain ⟨stored, tagged, _⟩ := shows.row_mem (List.mem_of_getLast? last)
      rw [shows.rows] at last
      have left : (s.rowsBelow tag e.sequence).length = n - k := by
        rw [rowsBelow_last session.backed.sound last, List.length_drop, many]
      obtain ⟨leaves, rest, still, stops⟩ := ih (n - k) (by omega)
        (.of_row session.backed.sound stored names tagged) left (by omega)
      have run : Run l.after l.interlude s := by rw [shows.after]; exact .nil
      refine ⟨l :: leaves, .next met shows.shown (shows.endId.trans ended) run ?_ rest, ?_, ?_⟩
      · rw [shows.after]
        exact fun _ stored _ _ => stored
      · exact List.forall_mem_cons.mpr ⟨⟨rfl, rfl⟩, still⟩
      · exact (stops_cons rest.ne_nil).mpr ⟨fun stop => enough (final.mp stop), stops⟩

theorem liveUnder_of_row (backed : Backed s) (stored : row ∈ s.index) (names : row.id = id.text)
    (tagged : row.tag = tag.text) : LiveUnder tag s id := by
  obtain ⟨r, latest, live, same⟩ := backed.rows row stored
  exact ⟨r, names ▸ latest, live, same.trans tagged⟩

/-- Where all that is live has rows, the rows of a tag say what is live under it. -/
theorem liveUnder_iff (backed : Backed s)
    (listed : ∀ id, LiveUnder tag s id → s.isIndexed id.text = true) (id : RecordId) :
    LiveUnder tag s id ↔ ∃ row ∈ s.index, row.id = id.text ∧ row.tag = tag.text := by
  constructor
  · intro live
    obtain ⟨row, stored, names⟩ := (Store.isIndexed_iff s id.text).mp (listed id live)
    obtain ⟨r, latest, _, same⟩ := backed.rows row stored
    obtain ⟨other, latestOther, _, tagged⟩ := live
    rw [latestOther.unique backed.sound.keyed (names ▸ latest), same] at tagged
    exact ⟨row, stored, names, tagged⟩
  · rintro ⟨row, stored, names, tagged⟩
    exact liveUnder_of_row backed stored names tagged

def walkedIds (leaves : List Leaf) : List RecordId := leaves.flatMap Leaf.ids

theorem Descends.texts (descends : Descends s bound leaves) :
    (walkedIds leaves).map (·.text) = (leaves.flatMap Leaf.rows).map (·.id) := by
  rw [walkedIds, List.map_flatMap, List.map_flatMap]
  exact List.flatMap_congr descends.placed

theorem Descends.nodup (descends : Descends s bound leaves) (sound : Sound s) :
    (walkedIds leaves).Nodup :=
  nodup_of_rows sound.formed descends.decreasing (fun row member => (descends.among row member).1)
    descends.texts

structure Walked (leaves : List Leaf) : Prop where
  succeeds : ∀ l ∈ leaves, ∃ page, l.outcome = .ok page
  distinct : (walkedIds leaves).Nodup
  placed : ∀ l ∈ leaves, l.ids.map (·.text) = l.rows.map (·.id)
  decreasing : (leaves.flatMap Leaf.rows).Pairwise fun a b => b.sequence < a.sequence

/-- Walks from `s` on reach all records of the tag. -/
structure Covered (tag : Tag) (s : Store) : Prop where
  /-- A walk to the end has walked every id that was live all the time exactly once. -/
  complete : ∀ leaves, Walk tag none s leaves → (∃ l, leaves.getLast? = some l ∧ l.Final) →
    ∀ id, (∀ u ∈ visited leaves, LiveUnder tag u id) → (walkedIds leaves).count id = 1
  /-- Without operations in between the live ids are walked from the newest index row on. -/
  still : ∀ leaves k, Walk tag none s leaves → Still k leaves → Stops leaves →
    (walkedIds leaves).map (·.text) = (s.indexRows tag).map (·.id) ∧
      (∀ id, id ∈ walkedIds leaves ↔ LiveUnder tag s id) ∧
      leaves.length = pageCount (walkedIds leaves).length k
  /-- And such a walk comes to its end. -/
  ends : ∀ k, 1 ≤ k → k ≤ Word.maxUnsigned →
    min k (s.indexRows tag).length ≤ Store.maxParameters →
    ∃ leaves, Walk tag none s leaves ∧ Still k leaves ∧ Stops leaves

theorem mem_iff_text {ids : List RecordId} : id ∈ ids ↔ id.text ∈ ids.map (·.text) := by
  simp

theorem mem_ids_iff {ids : List RecordId} {id : RecordId}
    (texts : ids.map (·.text) = (s.indexRows tag).map (·.id)) :
    id ∈ ids ↔ ∃ row ∈ s.index, row.id = id.text ∧ row.tag = tag.text := by
  rw [mem_iff_text, texts]
  simp only [List.mem_map, Store.mem_indexRows]
  constructor
  · rintro ⟨row, ⟨stored, tagged⟩, names⟩
    exact ⟨row, stored, names, tagged⟩
  · rintro ⟨row, stored, names, tagged⟩
    exact ⟨row, ⟨stored, tagged⟩, names⟩

section Reached

variable (session : Session turns s)
  (listed : ∀ id, LiveUnder tag s id → s.isIndexed id.text = true)
  (room : ∀ row ∈ s.indexRows tag, row.sequence < Word.maxSigned)
  (walk : Walk tag none s leaves)
include session listed room walk

theorem Session.count_eq_one (final : ∃ l, leaves.getLast? = some l ∧ l.Final)
    (live : ∀ u ∈ visited leaves, LiveUnder tag u id) : (walkedIds leaves).count id = 1 := by
  have opened := Open.of_room room
  have descends := walk.descends session opened.start
  obtain ⟨row, stored, names, tagged⟩ :=
    (liveUnder_iff session.backed listed id).mp (live s walk.start_visited)
  have below := room row (Store.mem_indexRows.mpr ⟨stored, tagged⟩)
  have alive : ∀ u ∈ visited leaves, Store.Live u row.id := by
    intro u among
    obtain ⟨r, latest, alive, _⟩ := live u among
    exact ⟨r, names ▸ latest, alive⟩
  have walked := walk.complete session opened stored tagged below alive final
  have member : id ∈ walkedIds leaves := by
    rw [mem_iff_text, descends.texts, ← names]
    exact List.mem_map_of_mem walked
  exact List.count_eq_one_of_mem (descends.nodup session.backed.sound) member

theorem Session.still_walked {k : Nat} (still : Still k leaves) (stops : Stops leaves) :
    (walkedIds leaves).map (·.text) = (s.indexRows tag).map (·.id) ∧
      (∀ id, id ∈ walkedIds leaves ↔ LiveUnder tag s id) ∧
      leaves.length = pageCount (walkedIds leaves).length k := by
  have opened := Open.of_room room
  have descends := walk.descends session opened.start
  obtain ⟨rows, pages⟩ := walk.still session opened still stops
  rw [rowsBelow_all room] at rows pages
  have texts := descends.texts
  rw [rows] at texts
  refine ⟨texts, fun id => ?_, ?_⟩
  · rw [mem_ids_iff texts, liveUnder_iff session.backed listed id]
  · have lengths := congrArg List.length texts
    rw [List.length_map, List.length_map] at lengths
    rw [pages, lengths]

end Reached

theorem Session.covered (session : Session turns s)
    (listed : ∀ id, LiveUnder tag s id → s.isIndexed id.text = true)
    (room : ∀ row ∈ s.indexRows tag, row.sequence < Word.maxSigned) : Covered tag s := by
  refine ⟨fun leaves walk final id live => session.count_eq_one listed room walk final live,
    fun leaves k walk still stops => session.still_walked listed room walk still stops,
    fun k positive fits few => ?_⟩
  have all : s.rowsBelow tag Word.maxSigned = s.indexRows tag := rowsBelow_all room
  exact still_walk default session positive fits (Open.of_room room) (all ▸ few)

/-- A page that would start above the greatest number shows nothing and is not the final one. -/
theorem Leaf.Shows.wrapped {full : IndexRow} (shows : l.Shows tag Word.minSigned page)
    (sound : Sound l.store) (top : l.before = none) (stored : full ∈ l.store.indexRows tag) :
    l.ids = [] ∧ ¬ l.Final := by
  have none_shown : l.rows = [] := by
    rw [shows.rows, rowsBelow_none sound.formed tag, List.take_nil]
  refine ⟨List.map_eq_nil_iff.mp (shows.ids.trans (by rw [none_shown, List.map_nil])), ?_⟩
  rintro ⟨other, shown, final⟩
  rw [Except.ok.inj (shown.symm.trans shows.shown), shows.hasPrevious, none_shown, top, rowsBehind,
    decide_eq_false_iff_not, List.length_nil] at final
  exact final (List.length_pos_of_mem stored)

theorem Session.stuck (session : Session turns s) (full : Exhausted tag s)
    (walk : Walk tag none s leaves) : ∃ l, leaves = [l] ∧ l.ids = [] ∧ ¬ l.Final := by
  obtain ⟨row, stored, tagged, greatest⟩ := full
  have listed := Store.mem_indexRows.mpr ⟨stored, tagged⟩
  have sound := session.backed.sound
  have start : Start s tag none Word.minSigned := .wrapped listed greatest
  generalize top : none = before at walk start
  cases walk with
  | @last l met done =>
    obtain ⟨page, shows⟩ := met.shows session start
    exact ⟨l, rfl, shows.wrapped sound top.symm listed⟩
  | @next l page id u leaves met shown ended =>
    have shows := met.shows_of session start shown
    rw [shows.endId, (shows.wrapped sound top.symm listed).1] at ended
    cases ended

/-- Where walks reach all records of a tag, each has an index row. -/
theorem Covered.listed (covered : Covered tag s) :
    ∀ id, LiveUnder tag s id → s.isIndexed id.text = true := by
  intro id live
  obtain ⟨leaves, walk, still, stops⟩ := covered.ends 1 (Nat.le_refl 1) (by decide)
    (Nat.le_trans (Nat.min_le_left _ _) (by decide))
  obtain ⟨texts, reached, _⟩ := covered.still leaves 1 walk still stops
  have walked := mem_iff_text.mp ((reached id).mpr live)
  rw [texts] at walked
  obtain ⟨row, member, names⟩ := List.mem_map.mp walked
  exact (Store.isIndexed_iff s id.text).mpr ⟨row, (Store.mem_indexRows.mp member).1, names⟩

theorem Covered.room (covered : Covered tag s) (session : Session turns s) :
    ¬ Exhausted tag s := by
  intro full
  obtain ⟨leaves, walk, _, stops⟩ := covered.ends 1 (Nat.le_refl 1) (by decide)
    (Nat.le_trans (Nat.min_le_left _ _) (by decide))
  obtain ⟨l, rfl, _, unfinished⟩ := session.stuck full walk
  exact unfinished stops.final

/-- After any requests, whatever takes place between the pages, a walk shows no record twice, and it
loses none exactly as long as each record of the tag has an index row and no row of the tag has the
greatest number. Operations leave the index like that. If a row of the tag has the greatest number,
the walk shows nothing and says that rows are left. -/
theorem walks_cover (session : Session turns s) (tag : Tag) :
    (∀ leaves, Walk tag none s leaves → Walked leaves) ∧
    (Covered tag s ↔
      (∀ id, LiveUnder tag s id → s.isIndexed id.text = true) ∧ ¬ Exhausted tag s) ∧
    (∀ events, Run .empty events s → Covered tag s) ∧
    (Exhausted tag s →
      ∀ leaves, Walk tag none s leaves → ∃ l, leaves = [l] ∧ l.ids = [] ∧ ¬ l.Final) := by
  have sound := session.backed.sound
  refine ⟨fun leaves walk => ?_, ⟨fun covered => ⟨covered.listed, covered.room session⟩, ?_⟩,
    fun events run => ?_, fun full leaves walk => session.stuck full walk⟩
  · have descends : ∃ bound, Descends s bound leaves := by
      by_cases full : Exhausted tag s
      · obtain ⟨row, stored, tagged, greatest⟩ := full
        have start : Start s tag none Word.minSigned :=
          .wrapped (Store.mem_indexRows.mpr ⟨stored, tagged⟩) greatest
        exact ⟨_, walk.descends session start⟩
      · exact ⟨_, walk.descends session (.newest (room_of_not_exhausted sound full))⟩
    obtain ⟨bound, descends⟩ := descends
    exact ⟨descends.succeeds, descends.nodup sound, descends.placed, descends.decreasing⟩
  · rintro ⟨listed, room⟩
    exact session.covered listed (room_of_not_exhausted sound room)
  · exact session.covered (fun _ live => run.steady.consistent.lists live)
      (room_of_not_exhausted sound (run.room tag))

theorem restored_walks_cover :
    let s := left .empty (play restoring .empty)
    let turns := (play restoring .empty).map Turn.ofEvent
    let tag : Tag := ⟨"app.note", by decide⟩
    Session turns s ∧ ¬ Exhausted tag s ∧ Covered tag s ∧
    ∃ leaves, Walk tag none s leaves ∧ Walked leaves ∧ walkedIds leaves = [default] := by
  intro s turns tag
  have run := play_run restoring .empty (by decide)
  have session : Session turns s := run.session .nil
  have room : ¬ Exhausted tag s := by
    rintro ⟨row, stored, _, greatest⟩
    have others : ∀ row ∈ s.index, row.sequence ≠ Word.maxSigned := by decide
    exact others row stored greatest
  obtain ⟨walked, exactly, reached, _⟩ := walks_cover session tag
  have covered := reached _ run
  obtain ⟨leaves, walk, still, stops⟩ := covered.ends 1 (by decide) (by decide) (by decide)
  have texts := (covered.still leaves 1 walk still stops).1
  have names : (s.indexRows tag).map (·.id) = [(default : RecordId).text] := by decide
  exact ⟨session, room, covered, leaves, walk, walked leaves walk, texts_inj (texts.trans names)⟩

def raised : Store :=
  { once with
    index := [⟨9223372036854775807, (default : RecordId).text, "app.note"⟩]
    lastIndex := 9223372036854775807 }

theorem once_raised : (query (Store.answer default) Query.raising []).outcome once =
    (.ok (.unpaginated []), raised) :=
  query_disguised Query.raising_resolved (by decide +kernel) default

/-- The record is live, but the first page shows nothing, leads nowhere and says that rows are
left. -/
theorem raised_not_covered :
    let tag : Tag := ⟨"app.note", by decide⟩
    Run .empty writing once ∧
      (query (Store.answer default) Query.raising []).outcome once =
        (.ok (.unpaginated []), raised) ∧
      LiveUnder tag raised default ∧
      (fetch (Store.answer default) tag 5 none).outcome raised =
        (.ok ⟨[], ⟨1, false, true, none, none⟩, none⟩, raised) ∧
      ¬ Covered tag raised := by
  intro tag
  have page : ∀ now, (fetch (Store.answer now) tag 5 none).outcome raised =
      (.ok ⟨[], ⟨1, false, true, none, none⟩, none⟩, raised) := fun now => rfl
  have latest : Store.latest? raised (default : RecordId).text =
      some ⟨1, (default : RecordId).text, "app.note", "[1]", 5⟩ := by decide
  have live : LiveUnder tag raised default := ⟨_, Store.latest?_latest latest, by decide, rfl⟩
  refine ⟨writing_run, once_raised, live, page _,
    fun covered => ?_⟩
  obtain ⟨leaves, walk, still, stops⟩ := covered.ends 5 (by decide) (by decide) (by decide)
  have answered : ∀ l ∈ leaves, l.Met tag → l.store = raised → l.before = none →
      l.outcome = .ok ⟨[], ⟨1, false, true, none, none⟩, none⟩ := by
    intro l member met store top
    have met := met.met
    rw [store, top, (still l member).2, page] at met
    exact (congrArg Prod.fst met).symm
  generalize start : raised = s at walk
  generalize top : none = before at walk
  cases walk with
  | @last l met done =>
    obtain ⟨shown, outcome, final⟩ := stops.final
    rw [answered l (.head _) met start.symm top.symm] at outcome
    cases outcome
    cases final
  | @next l shown id u rest met outcome ended =>
    rw [answered l (.head _) met start.symm top.symm] at outcome
    cases outcome
    cases ended

end RecordLedger.Ledger
