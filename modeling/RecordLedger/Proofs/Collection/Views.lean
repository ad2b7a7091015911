import RecordLedger.Proofs.Collection.Readers
import RecordLedger.Proofs.Ledger.Shown

/-! What exists in a collection. A record is read, its history is listed, and pages show it; the
first two go by the history alone, pages go by the index. -/
namespace RecordLedger

open Store (Latest Sound Backed Logged Legible)

namespace Collection

open Ledger (chained LiveUnder Exhausted Ample Holds shown OneTag Session)

def walk [Entity α] (b : Store.Backend σ) (c : Collection α) (sizes : List Nat)
    (before : Option RecordId) : Action σ (List (Connection α)) :=
  chained (fun first before => fetch b c first (before.map Cursor.mk)) Connection.page sizes before

def edges (pages : List (Connection α)) : List (Edge α) := pages.flatMap (·.edges)

variable [Entity α] {c : Collection α} {s t : Store} {log : List Version} {now : Instant}
  {sizes : List Nat} {before : Option RecordId} {pages : List Ledger.ResultSet}

theorem walk_logged (logged : Logged log s)
    (met : (Ledger.walk (Store.answer now) c.tag sizes before).outcome s = (.ok pages, t))
    (valued : ∀ page ∈ pages, ∀ v ∈ page.remaining, ∃ x : α, value? log v = some x) :
    (walk (Store.answer now) c sizes before).outcome s = (.ok (pages.map (connected log)), s) := by
  induction sizes generalizing before pages with
  | nil =>
    cases met
    rfl
  | cons k sizes ih =>
    obtain ⟨page, answered, ⟨id, rest, previous, ended, others, rfl⟩ | ⟨ended, rfl, _⟩⟩ :=
      Ledger.walk_cons_cases met
    · obtain ⟨first, valued⟩ := List.forall_mem_cons.mp valued
      have fetched := fetch_logged (c := c) logged now answered first
      have onward : (connected (α := α) log page).page.hasPrevious = true ∧
          (connected (α := α) log page).page.endId = some id := ⟨previous, ended⟩
      rw [walk, chained, Action.outcome_bind_ok fetched]
      simp only [onward]
      have behind := ih others valued
      rw [walk] at behind
      rw [Action.outcome_bind_ok behind]
      rfl
    · have fetched := fetch_logged (c := c) logged now answered
        (valued page List.mem_cons_self)
      rw [walk, chained, Action.outcome_bind_ok fetched]
      have stays : (connected (α := α) log page).page.hasPrevious = false ∨
          (connected (α := α) log page).page.endId = none := ended
      rcases stays with previous | ended
      · simp only [previous]
        rfl
      · simp only [ended]
        cases (connected (α := α) log page).page.hasPrevious <;> rfl

/-- What reading a record, listing its history and the edges of a walk show of an id. -/
inductive View (c : Collection α) (now : Instant) (s : Store) (shown : List (Edge α))
    (id : RecordId) : Prop
  /-- All three show the value of the latest version. -/
  | present (v : Version) (created : Instant) (body x : α) (rest : List (Entry α))
      (latest : Latest s id.text v.row) (decoded : Decodable.decode? v.payload = some body)
      (value : x = Entity.setTag c.tag (Decodable.place (.ofVersion v created) body))
      (read : (read (Store.answer now) c id).outcome s = (.ok x, s))
      (history : (history (Store.answer now) c id).outcome s =
        (.ok (⟨v.sequence, v.timestamp, some x⟩ :: rest), s))
      (edge : shown.filter (·.cursor.id = id) = [⟨⟨id⟩, x⟩])
  /-- None of them shows a value. -/
  | absent (e : Error) (entries : List (Entry α)) (missing : e.isNotFound = true)
      (read : (read (Store.answer now) c id).outcome s = (.error e, s))
      (history : (history (Store.answer now) c id).outcome s = (.ok entries, s))
      (deleted : entries.head?.all (·.isDeleted) = true)
      (edge : shown.filter (·.cursor.id = id) = [])

structure Agreed (c : Collection α) (now : Instant) (s : Store) (pages : List (Connection α)) :
    Prop where
  view : ∀ id, View c now s (edges pages) id
  /-- The edges come in the order of the index rows, newest first. -/
  order : (edges pages).map (·.cursor.id.text) = (s.indexRows c.tag).map (·.id)
  ends : ∀ page ∈ pages, page.page.startId = page.edges.head?.map (·.cursor.id) ∧
    page.page.endId = page.edges.getLast?.map (·.cursor.id)
  total : ∀ page ∈ pages, page.page.total = (edges pages).length

/-- Every walk with places for all rows of the collection agrees with the other readers. -/
def Agrees (c : Collection α) (s : Store) : Prop :=
  ∀ now sizes, Ample (s.indexRows c.tag).length sizes →
    ∃ pages, (walk (Store.answer now) c sizes none).outcome s = (.ok pages, s) ∧
      Agreed c now s pages

def AllIndexed (tag : Tag) (s : Store) : Prop :=
  ∀ id, LiveUnder tag s id → s.isIndexed id.text = true

variable {turns : List Ledger.Turn} {id : RecordId} {v : Version}

theorem filter_key {κ : Type} [DecidableEq κ] {key : β → κ} {xs : List β} {x : β}
    (distinct : (xs.map key).Nodup) (member : x ∈ xs) :
    xs.filter (fun y => key y = key x) = [x] := by
  induction xs with
  | nil => cases member
  | cons y ys ih =>
    obtain ⟨fresh, distinct⟩ := List.nodup_cons.mp distinct
    rcases List.mem_cons.mp member with rfl | member
    · have own : decide (key x = key x) = true := decide_eq_true rfl
      have others : ys.filter (fun y => key y = key x) = [] := by
        refine List.filter_eq_nil_iff.mpr fun z listed same => fresh ?_
        rw [← of_decide_eq_true same]
        exact List.mem_map_of_mem listed
      rw [List.filter_cons, if_pos own, others]
    · have other : key y ≠ key x := fun same => fresh (same ▸ List.mem_map_of_mem member)
      rw [List.filter_cons_of_neg (by simpa using other), ih distinct member]

section Agreement

variable (session : Session turns s) (decodes : Decodes c (Ledger.log turns))
  {blocks : List (List RecordId)} (held : List.Forall₂ (Holds s c.tag) blocks pages)
  (texts : blocks.flatten.map (·.text) = (s.indexRows c.tag).map (·.id))
  (met : (Ledger.walk (Store.answer now) c.tag sizes none).outcome s = (.ok pages, t))
include session decodes held texts met

theorem shown_valued : ∀ v ∈ shown pages, ∃ x : α, value? (Ledger.log turns) v = some x := by
  intro v member
  obtain ⟨_, tagged, live, stored⟩ := Ledger.shown_live session held texts met member
  obtain ⟨body, _, valued⟩ := decodes.value stored tagged live
  exact ⟨_, valued⟩

omit session decodes held texts met in
theorem edges_connected (log : List Version) :
    edges (pages.map (connected (α := α) log)) = (shown pages).filterMap (edge? log) := by
  rw [edges, List.flatMap_map, shown, List.filterMap_flatMap]
  rfl

omit [Entity α] session decodes held texts met in
theorem edge_ids [Entity α] {log : List Version} {vs : List Version}
    (valued : ∀ v ∈ vs, ∃ x : α, value? log v = some x) :
    (vs.filterMap (edge? (α := α) log)).map (·.cursor.id) = vs.map (·.id) := by
  induction vs with
  | nil => rfl
  | cons v vs ih =>
    obtain ⟨⟨x, valued⟩, others⟩ := List.forall_mem_cons.mp valued
    rw [List.filterMap_cons_some (edge?_of_value valued), List.map_cons, List.map_cons, ih others]

omit [Entity α] decodes held met in
theorem page_ids {page : Ledger.ResultSet} {ids : List RecordId} (among : ids ∈ blocks)
    (holds : Holds s c.tag ids page) : page.remaining.map (·.id) = ids := by
  have single : List.Forall₂ (Holds s c.tag) [ids] [page] := .cons holds .nil
  have same := Ledger.shown_ids_live single session.backed.sound fun id member => by
    rw [List.flatten_singleton] at member
    exact Ledger.live_of_texts session.backed texts (List.mem_flatten.mpr ⟨ids, among, member⟩)
  rwa [shown, List.flatMap_singleton, List.flatten_singleton] at same

omit [Entity α] decodes met in
theorem shown_blocks : (shown pages).map (·.id) = blocks.flatten :=
  Ledger.shown_ids_live held session.backed.sound fun _ => Ledger.live_of_texts session.backed texts

theorem edges_blocks :
    (edges (pages.map (connected (α := α) (Ledger.log turns)))).map (·.cursor.id) =
      blocks.flatten := by
  rw [edges_connected, edge_ids (shown_valued session decodes held texts met),
    shown_blocks session held texts]

omit [Entity α] decodes held met in
theorem mem_blocks_iff (listed : AllIndexed c.tag s) :
    id ∈ blocks.flatten ↔ LiveUnder c.tag s id := by
  rw [Ledger.mem_ids_iff texts, Ledger.liveUnder_iff session.backed listed]

/-- A record whose id was asked for is the same to all readers. -/
theorem view_present (asked : id ∈ blocks.flatten) :
    View c now s (edges (pages.map (connected (Ledger.log turns)))) id := by
  have logged := session.logged
  have sound := session.backed.sound
  have keys := edges_blocks session decodes held texts met
  rw [← shown_blocks session held texts] at asked
  obtain ⟨v, member, rfl⟩ := List.mem_map.mp asked
  obtain ⟨last, tagged, live, stored⟩ := Ledger.shown_live session held texts met member
  obtain ⟨body, decoded, value⟩ := decodes.value stored tagged live
  obtain ⟨rest, history⟩ := history_present logged (decodes.entries _) now last tagged live value
  have edge := List.mem_filterMap.mpr ⟨v, member, edge?_of_value value⟩
  rw [← edges_connected] at edge
  have distinct : ((edges (pages.map (connected (α := α) (Ledger.log turns)))).map
      (·.cursor.id)).Nodup := by
    rw [keys]
    exact Ledger.nodup_of_rows sound.formed (sound.formed.indexRows_decreasing c.tag)
      (fun row member => (Store.mem_indexRows.mp member).1) texts
  exact .present v _ body _ rest ((logged.latest_iff sound stored).mpr last) decoded
    (by rw [tagged]) (read_shown logged session.oneTag now last tagged live value) history
    (filter_key distinct edge)

/-- A record that is not live under the tag of the collection is shown by no reader. -/
theorem view_absent (dead : ¬ LiveUnder c.tag s id) :
    View c now s (edges (pages.map (connected (Ledger.log turns)))) id := by
  have logged := session.logged
  have hidden : ∀ v, (entries (Ledger.log turns) id).getLast? = some v → v.tag = c.tag →
      v.payload = tombstone := by
    intro v last tagged
    by_contra alive
    exact dead ((logged.liveUnder_iff session.backed.sound c.tag).mpr ⟨v, last, alive, tagged⟩)
  obtain ⟨e, read, missing⟩ := read_hidden logged session.oneTag now hidden
  obtain ⟨found, history, deleted⟩ := history_absent logged session.oneTag (decodes.entries _) now
    hidden
  refine .absent e found missing read history deleted (List.filter_eq_nil_iff.mpr ?_)
  intro edge member same
  have asked := List.mem_map_of_mem (f := fun e : Edge α => e.cursor.id) member
  rw [edges_blocks session decodes held texts met, of_decide_eq_true same] at asked
  exact dead (Ledger.live_of_texts session.backed texts asked)

theorem agreed_of_shown (listed : AllIndexed c.tag s) :
    Agreed c now s (pages.map (connected (Ledger.log turns))) := by
  have keys := edges_blocks session decodes held texts met
  have valued := shown_valued session decodes held texts met
  refine ⟨fun id => ?_, ?_, fun page member => ?_, fun page member => ?_⟩
  · by_cases live : LiveUnder c.tag s id
    · exact view_present session decodes held texts met
        ((mem_blocks_iff session texts listed).mpr live)
    · exact view_absent session decodes held texts met live
  · rw [← texts, ← keys, List.map_map]
    rfl
  · obtain ⟨plain, among, rfl⟩ := List.mem_map.mp member
    obtain ⟨own, block, holds⟩ := Ledger.holds_of_mem held among
    have own_ids : (connected (α := α) (Ledger.log turns) plain).edges.map (·.cursor.id) = own := by
      rw [← page_ids session texts block holds]
      exact edge_ids fun v listed => valued v (List.mem_flatMap.mpr ⟨plain, among, listed⟩)
    rw [← List.head?_map, ← List.getLast?_map, own_ids]
    exact ⟨holds.startId, holds.endId⟩
  · obtain ⟨plain, among, rfl⟩ := List.mem_map.mp member
    obtain ⟨_, _, holds⟩ := Ledger.holds_of_mem held among
    have lengths := congrArg List.length texts
    rw [← keys, List.length_map, List.length_map, List.length_map] at lengths
    rw [lengths]
    exact holds.total

end Agreement

theorem agrees_of_listed (session : Session turns s) (decodes : Decodes c (Ledger.log turns))
    (listed : AllIndexed c.tag s) (room : ¬ Exhausted c.tag s) : Agrees c s := by
  intro now sizes ample
  have logged := session.logged
  obtain ⟨pages, blocks, met, texts, held, _⟩ :=
    (Ledger.walk_all now session.backed.sound room ample).2 fun row _ => logged.legible row.id
  have valued := shown_valued session decodes held texts met
  refine ⟨_, walk_logged logged met fun page among v member => ?_,
    agreed_of_shown session decodes held texts met listed⟩
  exact valued v (List.mem_flatMap.mpr ⟨page, among, member⟩)

theorem Agrees.room (agrees : Agrees c s) (session : Session turns s) : ¬ Exhausted c.tag s := by
  intro full
  obtain ⟨positive, sizes, page, ample, shows, nothing, _⟩ :=
    Ledger.exhausted_walk .epoch session.backed.sound full
  obtain ⟨pages, met, agreed⟩ := agrees .epoch sizes ample
  have typed := walk_logged (c := c) session.logged shows (by simp [nothing])
  obtain rfl : pages = _ := Except.ok.inj (congrArg Prod.fst (met.symm.trans typed))
  have lengths := congrArg List.length agreed.order
  rw [edges_connected, shown, List.flatMap_singleton, nothing, List.length_map, List.length_map]
    at lengths
  exact Nat.ne_of_lt positive lengths

theorem Agrees.listed (agrees : Agrees c s) (session : Session turns s)
    (decodes : Decodes c (Ledger.log turns)) : AllIndexed c.tag s := by
  intro id live
  obtain ⟨pages, _, agreed⟩ := agrees .epoch _ (Ledger.ample_succ _)
  cases agreed.view id with
  | present v created body x rest latest decoded value read history edge =>
    have member : (⟨⟨id⟩, x⟩ : Edge α) ∈ edges pages := by
      have among : (⟨⟨id⟩, x⟩ : Edge α) ∈ (edges pages).filter (·.cursor.id = id) := by
        rw [edge]
        exact List.mem_cons_self
      exact (List.mem_filter.mp among).1
    have named := List.mem_map_of_mem (f := fun e : Edge α => e.cursor.id.text) member
    rw [agreed.order] at named
    obtain ⟨row, listed, names⟩ := List.mem_map.mp named
    exact (Store.isIndexed_iff s id.text).mpr ⟨row, (Store.mem_indexRows.mp listed).1, names⟩
  | absent e found missing read history deleted edge =>
    have logged := session.logged
    obtain ⟨v, last, live, tagged⟩ := (logged.liveUnder_iff session.backed.sound c.tag).mp live
    have stored := (mem_entries.mp (List.mem_of_getLast? last)).1
    obtain ⟨body, _, value⟩ := decodes.value stored tagged live
    rw [read_shown logged session.oneTag .epoch last tagged live value] at read
    cases read

/-- After any requests, in a collection whose payloads can be decoded, reading a record, listing its
history and walking over the pages agree on what exists and on every value, exactly as long as no
live record of the tag is without an index row and the tag has not used the greatest number.
Operations alone see to that. -/
theorem views_agree (session : Session turns s) (decodes : Decodes c (Ledger.log turns)) :
    (Agrees c s ↔ AllIndexed c.tag s ∧ ¬ Exhausted c.tag s) ∧
    ∀ events, Ledger.Run .empty events s → Agrees c s := by
  refine ⟨⟨fun agrees => ⟨agrees.listed session decodes, agrees.room session⟩, ?_⟩,
    fun events run => ?_⟩
  · rintro ⟨listed, room⟩
    exact agrees_of_listed session decodes listed room
  · have listed : AllIndexed c.tag s := fun _ live => run.steady.consistent.lists live
    exact agrees_of_listed session decodes listed (run.room c.tag)

def revived : List (Instant × Ledger.Operation) :=
  [(.epoch, .change (.write default ⟨none, Ledger.memoTag, .ok "\x7b\"a\":1\x7d"⟩)),
    (.epoch, .change (.delete default Ledger.memoTag)),
    (.epoch, .change (.restore default Ledger.memoTag .epoch))]

def memos : Collection Document := ⟨Ledger.memoTag⟩

theorem revived_views_agree :
    let s := Ledger.left .empty (Ledger.play revived .empty)
    let turns := (Ledger.play revived .empty).map Ledger.Turn.ofEvent
    Session turns s ∧ Decodes memos (Ledger.log turns) ∧ Agrees memos s := by
  intro s turns
  have run := Ledger.play_run revived .empty (by decide)
  have session : Session turns s := run.session .nil
  have decodes : Decodes memos (Ledger.log turns) := by
    unfold Decodes
    decide +kernel
  exact ⟨session, decodes, (views_agree session decodes).2 _ run⟩

theorem fetch_unlisted (logged : Logged log s) (now : Instant) {k : Nat} (positive : 0 < k)
    (gone : s.index = []) :
    (fetch (Store.answer now) c k none).outcome s = (.ok ⟨[], .empty⟩, s) := by
  have answered := Ledger.fetch_unlisted now c.tag positive gone
  have fetched := fetch_logged (c := c) logged now answered (by simp)
  exact fetched

def unlisting : Ledger.Turn :=
  .unlisting .epoch (Ledger.left .empty (Ledger.play revived .empty))

def unlisted : List Ledger.Turn :=
  (Ledger.play revived .empty).map Ledger.Turn.ofEvent ++ [unlisting]

theorem unlisted_log :
    Ledger.log unlisted = Ledger.log ((Ledger.play revived .empty).map Ledger.Turn.ofEvent) := by
  rw [unlisted, Ledger.log_snoc]
  exact List.append_nil _

/-- The statement takes the record off the pages, and it can still be read. -/
theorem disguised_views_differ :
    Session unlisted unlisting.after ∧ Decodes memos (Ledger.log unlisted) ∧
      (∃ x, (read (Store.answer .epoch) memos default).outcome unlisting.after =
        (.ok x, unlisting.after)) ∧
      (fetch (Store.answer .epoch) memos 5 none).outcome unlisting.after =
        (.ok ⟨[], .empty⟩, unlisting.after) ∧
      ¬ Agrees memos unlisting.after := by
  have run := Ledger.play_run revived .empty (by decide)
  have session : Session unlisted unlisting.after :=
    .snoc (run.session .nil) (Ledger.Turn.unlisting_follows .epoch _)
  have decodes : Decodes memos (Ledger.log unlisted) := by
    rw [unlisted_log]
    unfold Decodes
    decide +kernel
  have gone : unlisting.after.index = [] := rfl
  have newest : ((entries (Ledger.log unlisted) default).getLast?.filter fun v =>
      v.tag = memos.tag ∧ v.payload ≠ tombstone).isSome = true := by
    rw [unlisted_log]
    decide +kernel
  obtain ⟨v, found⟩ := Option.isSome_iff_exists.mp newest
  obtain ⟨last, shows⟩ := Option.filter_eq_some_iff.mp found
  obtain ⟨tagged, live⟩ := of_decide_eq_true shows
  have logged := session.logged
  have stored := (mem_entries.mp (List.mem_of_getLast? last)).1
  obtain ⟨body, _, valued⟩ := decodes.value stored tagged live
  refine ⟨session, decodes, ⟨_, read_shown logged session.oneTag .epoch last tagged live valued⟩,
    ?_, fun agrees => ?_⟩
  · exact fetch_unlisted logged .epoch (Nat.succ_pos 4) gone
  · have listed := agrees.listed session decodes default
      ((logged.liveUnder_iff session.backed.sound _).mpr ⟨v, last, live, tagged⟩)
    obtain ⟨row, stored, _⟩ := (Store.isIndexed_iff _ _).mp listed
    rw [gone] at stored
    cases stored

end Collection
end RecordLedger
