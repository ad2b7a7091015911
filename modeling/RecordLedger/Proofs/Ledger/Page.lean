import RecordLedger.Proofs.Ledger.Outcome
import RecordLedger.Proofs.Store.Listing

/-! A page by its parts: the number it selects below, the selected ids and what counts say of
them. -/
namespace RecordLedger.Ledger

variable {σ : Type}

theorem fetch_eq (b : Store.Backend σ) (tag : Tag) (first : Nat) (before : Option RecordId)
    (positive : 0 < first) :
    fetch b tag first before =
      call b (.indexCount tag) >>= fun total =>
      call b (.indexMaxSequence tag) >>= fun newest =>
      match newest with
      | none => pure ⟨[], { PageInfo.empty with total }, none⟩
      | some newest =>
        pageLimit b tag before newest >>= fun limit =>
        call b (.indexWindow tag limit) >>= fun window =>
        call b (.indexIdsBefore tag limit first) >>= fun ids =>
        latestInOrder b ids >>= fun records =>
        pure ⟨records.filter (·.tag = tag), pageInfo before total window ids, none⟩ := by
  have some_place : ¬ first = 0 := by omega
  refine (if_neg some_place).trans (bind_congr fun total => bind_congr fun newest => ?_)
  cases newest <;> rfl

open Store (Latest Formed IndexRow)

variable {s : Store} {tag : Tag}

/-- Among the latest versions of some ids the search for an id finds its own. -/
theorem find_latest (keyed : Store.Keyed s) {ids : List RecordId} {vs : List Version}
    (read : ∀ r, r ∈ vs.map Version.row ↔ ∃ id ∈ ids, Latest s id.text r) {id : RecordId}
    (asked : id ∈ ids) :
    (vs.reverse.find? (·.id = id)).map Version.row = s.latest? id.text := by
  cases search : vs.reverse.find? (·.id = id) with
  | none =>
    cases found : s.latest? id.text with
    | none => rfl
    | some r =>
      have latest := Store.latest?_latest found
      obtain ⟨v, member, rfl⟩ := List.mem_map.mp ((read r).mpr ⟨id, asked, latest⟩)
      have other := List.find?_eq_none.mp search v (List.mem_reverse.mpr member)
      have names : v.id.text = id.text := latest.names
      simp [RecordId.text_injective _ _ names] at other
  | some v =>
    have names : v.id = id := by simpa using List.find?_some search
    have member := List.mem_map_of_mem (f := Version.row)
      (List.mem_reverse.mp (List.mem_of_find?_eq_some search))
    obtain ⟨other, _, latest⟩ := (read v.row).mp member
    have same : other.text = id.text := by rw [← latest.names, ← names]; rfl
    exact ((Store.latest?_eq_some_iff keyed).mpr (same ▸ latest)).symm

theorem latestInOrder_ok (now : Instant) (keyed : Store.Keyed s) (words : Store.Worded s)
    (ids : List RecordId) (readable : ∀ id ∈ ids, Store.Readable s id.text)
    (few : ids.length ≤ Store.maxParameters) :
    ∃ vs, (latestInOrder (Store.answer now) ids).outcome s = (.ok vs, s) ∧
      vs.map Version.row = ids.eraseDups.filterMap fun id => s.latest? id.text := by
  obtain ⟨vs, answered, read⟩ := Store.latestVersionsIn_ok keyed words ids readable few
  refine ⟨arranged ids vs, ?_, ?_⟩
  · have answered : Store.answer now (.latestVersionsIn ids) s = (.ok vs, s) := by
      simp only [Store.answer, answered]
    rw [latestInOrder, Action.outcome_call_bind answered]
    rfl
  · rw [arranged, List.map_filterMap]
    refine List.filterMap_congr fun id member => ?_
    exact find_latest keyed read (List.mem_eraseDups.mp member)

theorem latestInOrder_failed {ids : List RecordId} {e : Store.Error} (now : Instant)
    (failed : s.latestVersionsIn ids = .error e) :
    (latestInOrder (Store.answer now) ids).outcome s = (.error (.store e), s) := by
  have answered : Store.answer now (.latestVersionsIn ids) s = (.error e, s) := by
    simp only [Store.answer, failed]
  rw [latestInOrder, Action.outcome_bind, Action.outcome_call, answered]
  rfl

/-- One statement takes only so many ids. -/
theorem latestInOrder_many (now : Instant) (s : Store) {ids : List RecordId}
    (many : Store.maxParameters < ids.length) :
    (latestInOrder (Store.answer now) ids).outcome s = (.error (.store .statement), s) :=
  latestInOrder_failed now (if_pos many)

theorem eraseDups_of_nodup {ids : List RecordId} (distinct : ids.Nodup) : ids.eraseDups = ids := by
  induction ids with
  | nil => rfl
  | cons id rest ih =>
    obtain ⟨other, distinct⟩ := List.nodup_cons.mp distinct
    have kept : rest.filter (fun b => !b == id) = rest := by
      refine List.filter_eq_self.mpr fun b member => ?_
      simpa using fun same : b = id => other (same ▸ member)
    rw [List.eraseDups_cons, kept, ih distinct]

def Exhausted (tag : Tag) (s : Store) : Prop :=
  ∃ row ∈ s.index, row.tag = tag.text ∧ row.sequence = Word.maxSigned

theorem room_of_not_exhausted (sound : Store.Sound s) (room : ¬ Exhausted tag s) :
    ∀ row ∈ s.indexRows tag, row.sequence < Word.maxSigned := by
  intro row listed
  obtain ⟨stored, tagged⟩ := Store.mem_indexRows.mp listed
  have upper := (sound.index_bounds stored).2.2
  have other : row.sequence ≠ Word.maxSigned := fun full => room ⟨row, stored, tagged, full⟩
  omega

/-- Where a page starts: in front of all rows, or behind the row of a record. Its rows have numbers
below `bound`. There is no number above the greatest one, and the bound wraps to the least. -/
inductive Start (s : Store) (tag : Tag) : Option RecordId → Int → Prop
  | newest (room : ∀ row ∈ s.indexRows tag, row.sequence < Word.maxSigned) :
      Start s tag none Word.maxSigned
  | wrapped {row : IndexRow} (stored : row ∈ s.indexRows tag)
      (full : row.sequence = Word.maxSigned) : Start s tag none Word.minSigned
  | behind {id : RecordId} {row : IndexRow} (stored : row ∈ s.index) (names : row.id = id.text)
      (tagged : row.tag = tag.text) : Start s tag (some id) row.sequence

def rowsBehind (s : Store) (tag : Tag) : Option RecordId → List IndexRow
  | none => s.indexRows tag
  | some id => (s.indexRows tag).filter fun row =>
      s.index.any fun anchor => anchor.id == id.text && decide (row.sequence < anchor.sequence)

theorem rowsBehind_eq (formed : Formed s) {id : RecordId} {row : IndexRow} (stored : row ∈ s.index)
    (names : row.id = id.text) : rowsBehind s tag (some id) = s.rowsBelow tag row.sequence := by
  refine List.filter_congr fun other _ => ?_
  rw [Bool.eq_iff_iff, List.any_eq_true, decide_eq_true_iff]
  simp only [Bool.and_eq_true, beq_iff_eq, decide_eq_true_eq]
  constructor
  · rintro ⟨anchor, listed, same, less⟩
    rwa [formed.keyed.row_unique listed stored (same.trans names.symm)] at less
  · exact fun less => ⟨row, stored, names, less⟩

theorem rowsBelow_all {bound : Int} (all : ∀ row ∈ s.indexRows tag, row.sequence < bound) :
    s.rowsBelow tag bound = s.indexRows tag :=
  List.filter_eq_self.mpr fun row member => decide_eq_true (all row member)

theorem rowsBelow_none (formed : Formed s) (tag : Tag) :
    s.rowsBelow tag Word.minSigned = [] := by
  refine List.eq_nil_iff_forall_not_mem.mpr fun row member => ?_
  obtain ⟨listed, _, below⟩ := Store.mem_rowsBelow.mp member
  have := (formed.bounds row listed).1
  simp only [Word.minSigned] at below
  omega

theorem pageLimit_ok {before : Option RecordId} {bound : Int} {newest : IndexRow}
    {rest : List IndexRow} (now : Instant) (formed : Formed s) (start : Start s tag before bound)
    (shape : s.indexRows tag = newest :: rest) :
    ∃ limit, (pageLimit (Store.answer now) tag before (Word.unsigned newest.sequence)).outcome s =
        (.ok limit, s) ∧
      s.rowsBelow tag (Word.signed limit) = s.rowsBelow tag bound ∧
      (before.isSome → Word.signed limit = bound) := by
  cases start with
  | newest room =>
    have member : newest ∈ s.indexRows tag := by rw [shape]; exact List.mem_cons_self
    have bounds := formed.bounds _ (Store.mem_indexRows.mp member).1
    have below := room newest member
    have word := Word.unsigned_of_nonneg (by omega : 0 ≤ newest.sequence) bounds.2
    have limit : Word.signed (Word.unsigned newest.sequence + 1) = newest.sequence + 1 := by
      rw [Word.signed_of_le (by omega)]
      omega
    refine ⟨Word.unsigned newest.sequence + 1, rfl, ?_, nofun⟩
    rw [rowsBelow_all room, rowsBelow_all]
    intro row listed
    have decreasing := formed.indexRows_decreasing tag
    rw [shape] at listed decreasing
    rcases List.mem_cons.mp listed with rfl | listed
    · omega
    · have := (List.pairwise_cons.mp decreasing).1 row listed
      omega
  | wrapped stored full =>
    have bounds := formed.bounds _ (Store.mem_indexRows.mp stored).1
    have member : newest ∈ s.indexRows tag := by rw [shape]; exact List.mem_cons_self
    have upper := formed.bounds _ (Store.mem_indexRows.mp member).1
    have greatest : newest.sequence = Word.maxSigned := by
      have decreasing := formed.indexRows_decreasing tag
      rw [shape] at stored decreasing
      rcases List.mem_cons.mp stored with rfl | stored
      · exact full
      · have := (List.pairwise_cons.mp decreasing).1 _ stored
        omega
    have limit : Word.signed (Word.unsigned newest.sequence + 1) = Word.minSigned := by
      rw [greatest]
      decide
    exact ⟨Word.unsigned newest.sequence + 1, rfl, by rw [limit], nofun⟩
  | @behind id row stored names tagged =>
    have bounds := formed.bounds row stored
    have lower : Word.minSigned ≤ row.sequence := Int.le_trans (by decide) bounds.1
    have limit := Word.signed_unsigned lower bounds.2
    refine ⟨_, ?_, by rw [limit], fun _ => limit⟩
    have answered : Store.answer now (.indexEntry id tag) s =
        (.ok (some ⟨Word.unsigned row.sequence, id, tag⟩), s) := by
      simp only [Store.answer, Store.indexEntry_ok formed stored names tagged]
    rw [pageLimit, anchor, Action.outcome_call_bind answered]
    rfl

def around (s : Store) (tag : Tag) (before : Option RecordId) (bound : Int) (ids : List RecordId) :
    PageInfo :=
  pageInfo before (s.indexRows tag).length
    ⟨(rowsBehind s tag before).length,
      (s.indexRows tag).countP fun row => decide (bound < row.sequence)⟩ ids

theorem around_eq (s : Store) (tag : Tag) (before : Option RecordId) (bound : Int)
    (ids : List RecordId) : around s tag before bound ids = ⟨(s.indexRows tag).length,
      before.isSome && decide (0 < (s.indexRows tag).countP fun row => decide (bound < row.sequence)),
      decide (ids.length < (rowsBehind s tag before).length), ids.head?, ids.getLast?⟩ := by
  cases before <;> rfl

/-- A page with the ids of the first rows below its bound. Its records are the latest versions of
those ids as far as they have the tag. -/
structure Paged (s : Store) (tag : Tag) (before : Option RecordId) (bound : Int) (first : Nat)
    (ids : List RecordId) (page : ResultSet) : Prop where
  selected : ids.map (·.text) = ((s.rowsBelow tag bound).take first).map (·.id)
  records : page.remaining.map Version.row =
    (ids.filterMap fun id => s.latest? id.text).filter fun r => r.tag == tag.text
  info : page.page = around s tag before bound ids

theorem rows_filter_tag (vs : List Version) (tag : Tag) :
    (vs.filter (·.tag = tag)).map Version.row =
      (vs.map Version.row).filter fun r => r.tag == tag.text := by
  rw [List.filter_map]
  congr 1
  refine List.filter_congr fun v _ => ?_
  rw [Function.comp_apply, Bool.eq_iff_iff, decide_eq_true_iff, beq_iff_eq]
  exact (Tag.text_inj v.tag tag).symm

theorem texts_inj {xs ys : List RecordId} (same : xs.map (·.text) = ys.map (·.text)) : xs = ys :=
  (List.map_inj_right RecordId.text_injective).mp same

/-- Ids whose texts are those of index rows in decreasing order are distinct. -/
theorem nodup_of_rows (formed : Formed s) {rows : List IndexRow} {ids : List RecordId}
    (decreasing : rows.Pairwise fun a b => b.sequence < a.sequence)
    (stored : ∀ row ∈ rows, row ∈ s.index) (texts : ids.map (·.text) = rows.map (·.id)) :
    ids.Nodup := by
  have apart : (rows.map (·.id)).Pairwise fun a b => a ≠ b := by
    rw [List.pairwise_map]
    refine decreasing.imp_of_mem fun memberA memberB less same => ?_
    rw [formed.keyed.row_unique (stored _ memberA) (stored _ memberB) same] at less
    exact Int.lt_irrefl _ less
  rw [← texts, List.pairwise_map] at apart
  exact apart.imp fun other same => other (congrArg RecordId.text same)

theorem latestInOrder_nil (now : Instant) (s : Store) :
    (latestInOrder (Store.answer now) []).outcome s = (.ok [], s) := by
  have rows : (s.versions.filter fun r => ([] : List RecordId).any (·.text == r.id) &&
      s.isLatest r) = [] := List.filter_eq_nil_iff.mpr fun r _ => by simp
  have answered : Store.answer now (.latestVersionsIn []) s = (.ok [], s) := by
    simp only [Store.answer, Store.latestVersionsIn, rows]
    rfl
  rw [latestInOrder, Action.outcome_call_bind answered]
  rfl

theorem fetch_taken {before : Option RecordId} {bound : Int} {first : Nat} (now : Instant)
    (formed : Formed s) (start : Start s tag before bound) (positive : 0 < first) :
    ∃ ids k, (first ≤ Word.maxUnsigned → k = first) ∧
      ids.map (·.text) = ((s.rowsBelow tag bound).take k).map (·.id) ∧
      (fetch (Store.answer now) tag first before).outcome s =
        (latestInOrder (Store.answer now) ids >>= fun records =>
          pure ⟨records.filter (·.tag = tag), around s tag before bound ids, none⟩).outcome s := by
  have count : Store.answer now (.indexCount tag) s = (.ok (s.indexRows tag).length, s) := rfl
  have newest : Store.answer now (.indexMaxSequence tag) s = (.ok _, s) := rfl
  rw [fetch_eq _ tag first before positive, Action.outcome_call_bind count,
    Action.outcome_call_bind newest, Store.indexMaxSequence]
  cases shape : s.indexRows tag with
  | nil =>
    have none_below : s.rowsBelow tag bound = [] := by rw [Store.rowsBelow, shape]; rfl
    have none_behind : rowsBehind s tag before = [] := by
      cases before with
      | none => exact shape
      | some id => rw [rowsBehind, shape]; rfl
    have nothing : around s tag before bound [] = { PageInfo.empty with total := 0 } := by
      simp [around_eq, none_behind, shape, PageInfo.empty]
    refine ⟨[], first, fun _ => rfl, by simp [none_below], ?_⟩
    rw [Action.outcome_bind_ok (latestInOrder_nil now s), nothing]
    rfl
  | cons newest rest =>
    obtain ⟨limit, limited, below, behind⟩ := pageLimit_ok now formed start shape
    obtain ⟨ids, k, whole, chosen, selected⟩ :=
      Store.indexIdsBefore_taken formed tag limit first
    rw [below] at selected
    have window : Store.answer now (.indexWindow tag limit) s = (.ok _, s) := rfl
    have chosen : Store.answer now (.indexIdsBefore tag limit first) s = (.ok ids, s) := by
      simp only [Store.answer, chosen]
    refine ⟨ids, k, whole, selected, ?_⟩
    simp only [List.head?_cons, Option.map_some]
    rw [Action.outcome_bind_ok limited, Action.outcome_call_bind window,
      Action.outcome_call_bind chosen]
    suffices info : pageInfo before (newest :: rest).length (s.indexWindow tag limit) ids =
        around s tag before bound ids by rw [info]
    rw [around, shape]
    cases start with
    | newest => rfl
    | wrapped => rfl
    | @behind id row stored names tagged =>
      have window : (s.indexWindow tag limit).before = (rowsBehind s tag (some id)).length := by
        rw [rowsBehind_eq formed stored names, ← below, Store.rowsBelow,
          ← List.countP_eq_length_filter]
        rfl
      rw [← window]
      simp only [Store.indexWindow, behind rfl, shape]

theorem fetch_selected {before : Option RecordId} {bound : Int} {first : Nat} (now : Instant)
    (formed : Formed s) (start : Start s tag before bound) (positive : 0 < first)
    (fits : first ≤ Word.maxUnsigned) :
    ∃ ids, ids.map (·.text) = ((s.rowsBelow tag bound).take first).map (·.id) ∧
      (fetch (Store.answer now) tag first before).outcome s =
        (latestInOrder (Store.answer now) ids >>= fun records =>
          pure ⟨records.filter (·.tag = tag), around s tag before bound ids, none⟩).outcome s := by
  obtain ⟨ids, k, whole, selected, fetched⟩ := fetch_taken now formed start positive
  obtain rfl := whole fits
  exact ⟨ids, selected, fetched⟩

/-- A page behind a record without a row of the tag is refused, if the tag has rows at all. -/
theorem fetch_unanchored {id : RecordId} {first : Nat} (now : Instant) (positive : 0 < first)
    (absent : ∀ row ∈ s.indexRows tag, row.id ≠ id.text) :
    (fetch (Store.answer now) tag first (some id)).outcome s =
      (if (s.indexRows tag).isEmpty then .ok ⟨[], .empty, none⟩
        else .error (.missing (.anchor tag id)), s) := by
  have count : Store.answer now (.indexCount tag) s = (.ok (s.indexRows tag).length, s) := rfl
  have newest : Store.answer now (.indexMaxSequence tag) s = (.ok _, s) := rfl
  have missing : Store.answer now (.indexEntry id tag) s = (.ok none, s) := by
    have nothing : (s.index.find? fun r => r.id == id.text && r.tag == tag.text) = none := by
      refine List.find?_eq_none.mpr fun row stored fields => ?_
      simp only [Bool.and_eq_true, beq_iff_eq] at fields
      exact absent row (Store.mem_indexRows.mpr ⟨stored, fields.2⟩) fields.1
    simp only [Store.answer, Store.indexEntry, nothing]
  rw [fetch_eq _ tag first _ positive, Action.outcome_call_bind count,
    Action.outcome_call_bind newest, Store.indexMaxSequence]
  cases s.indexRows tag with
  | nil => rfl
  | cons row rest =>
    simp only [List.head?_cons, Option.map_some, pageLimit, anchor]
    rw [Action.outcome_bind, Action.outcome_call_bind missing]
    rfl

theorem selected_paged {bound : Int} {k : Nat} {ids : List RecordId} (now : Instant)
    (before : Option RecordId) (formed : Formed s)
    (selected : ids.map (·.text) = ((s.rowsBelow tag bound).take k).map (·.id))
    (readable : ∀ row ∈ (s.rowsBelow tag bound).take k, Store.Readable s row.id)
    (few : ids.length ≤ Store.maxParameters) :
    ∃ page, (latestInOrder (Store.answer now) ids >>= fun records =>
        pure ⟨records.filter (·.tag = tag), around s tag before bound ids, none⟩).outcome s =
        (.ok page, s) ∧ Paged s tag before bound k ids page := by
  have readable : ∀ id ∈ ids, Store.Readable s id.text := by
    intro id member
    have named : id.text ∈ ids.map (·.text) := List.mem_map_of_mem member
    rw [selected] at named
    obtain ⟨row, listed, names⟩ := List.mem_map.mp named
    exact names ▸ readable row listed
  obtain ⟨vs, answered, rows⟩ := latestInOrder_ok now formed.keyed formed.words ids readable few
  have distinct : ids.Nodup := by
    apply nodup_of_rows formed
      ((formed.rowsBelow_decreasing tag bound).sublist (List.take_sublist k _)) _ selected
    intro row member
    exact (Store.mem_rowsBelow.mp (List.mem_of_mem_take member)).1
  rw [eraseDups_of_nodup distinct] at rows
  refine ⟨⟨vs.filter (·.tag = tag), around s tag before bound ids, none⟩, ?_, selected,
    by rw [rows_filter_tag, rows], rfl⟩
  rw [Action.outcome_bind_ok answered]
  rfl

theorem fetch_answer {before : Option RecordId} {bound : Int} {first : Nat} (now : Instant)
    (formed : Formed s)
    (readable : ∀ row ∈ (s.rowsBelow tag bound).take first, Store.Readable s row.id)
    (start : Start s tag before bound) (positive : 0 < first) (fits : first ≤ Word.maxUnsigned)
    (few : ((s.rowsBelow tag bound).take first).length ≤ Store.maxParameters) :
    ∃ page ids, (fetch (Store.answer now) tag first before).outcome s = (.ok page, s) ∧
      Paged s tag before bound first ids page := by
  obtain ⟨ids, selected, fetched⟩ := fetch_selected now formed start positive fits
  have few : ids.length ≤ Store.maxParameters := by
    have lengths := congrArg List.length selected
    rw [List.length_map, List.length_map] at lengths
    omega
  obtain ⟨page, answered, paged⟩ := selected_paged now before formed selected readable few
  exact ⟨page, ids, fetched.trans answered, paged⟩

theorem fetch_paged {before : Option RecordId} {bound : Int} {first : Nat} {page : ResultSet}
    {t : Store} (now : Instant) (formed : Formed s)
    (readable : ∀ row ∈ s.index, Store.Readable s row.id) (start : Start s tag before bound)
    (met : (fetch (Store.answer now) tag first before).outcome s = (.ok page, t)) :
    ∃ k ids, Paged s tag before bound k ids page := by
  have positive : 0 < first := by
    refine Nat.pos_of_ne_zero fun none_asked => ?_
    subst none_asked
    cases met
  obtain ⟨ids, k, _, selected, fetched⟩ := fetch_taken now formed start positive
  rw [fetched] at met
  by_cases few : ids.length ≤ Store.maxParameters
  · obtain ⟨found, answered, paged⟩ := selected_paged now before formed selected
      (fun row member => readable row (Store.mem_rowsBelow.mp (List.mem_of_mem_take member)).1) few
    cases answered.symm.trans met
    exact ⟨k, ids, paged⟩
  · rw [Action.outcome_bind, latestInOrder_many now s (Nat.lt_of_not_le few)] at met
    cases met

end RecordLedger.Ledger
