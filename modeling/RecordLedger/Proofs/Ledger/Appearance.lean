import Mathlib.Data.List.Infix
import RecordLedger.Proofs.Ledger.Growth
import RecordLedger.Proofs.Ledger.Numbers
import RecordLedger.Proofs.Ledger.Shown

/-! In which order pages list records. An index row is numbered when it is added and no stored time
says when that was, so the order is said of the turns: a record stands where it stands since the
last turn that made it live. -/
namespace RecordLedger.Ledger

open Store (Live Latest Sound Logged IndexRow)

variable {s t : Store} {turns front : List Turn} {e : Turn} {id : String} {tag : Tag} {n : Nat}
  {past : List Version}

/-- A session has been one all along. -/
theorem Session.upto (session : Session turns s) (part : front <+: turns) :
    Session front (leftBy front) := by
  induction session with
  | nil =>
    rw [List.prefix_nil.mp part]
    exact .nil
  | @snoc turns s e session follows ih =>
    rcases List.prefix_concat_iff.mp part with rfl | part
    · rw [leftBy_snoc]
      exact session.snoc follows
    · exact ih part

theorem Session.follows (session : Session turns s) (part : front ++ [e] <+: turns) :
    e.Follows (leftBy front) := by
  obtain ⟨t, whole⟩ : ∃ t, Session (front ++ [e]) t := ⟨_, session.upto part⟩
  generalize shape : front ++ [e] = all at whole
  cases whole with
  | nil => simp at shape
  | snoc before follows =>
    obtain ⟨rfl, last⟩ := List.append_inj' shape rfl
    cases last
    rwa [before.leftBy_eq]

/-- The id is live since turn `n`, and it was not live before that turn. -/
structure Appeared (turns : List Turn) (id : String) (n : Nat) : Prop where
  within : n < turns.length
  absent : ¬ Live (leftBy (turns.take n)) id
  since : ∀ m, n < m → m ≤ turns.length → Live (leftBy (turns.take m)) id

namespace Appeared

theorem live (appeared : Appeared turns id n) : Live (leftBy turns) id := by
  have last := appeared.since turns.length appeared.within (Nat.le_refl _)
  rwa [List.take_length] at last

theorem unique {m : Nat} (first : Appeared turns id m) (second : Appeared turns id n) : m = n := by
  rcases Nat.lt_trichotomy m n with less | same | more
  · exact absurd (first.since n less (Nat.le_of_lt second.within)) second.absent
  · exact same
  · exact absurd (second.since m more (Nat.le_of_lt first.within)) first.absent

theorem snoc (appeared : Appeared turns id n) (live : Live e.after id) :
    Appeared (turns ++ [e]) id n := by
  have within := appeared.within
  refine ⟨?_, ?_, fun m later upto => ?_⟩
  · rw [List.length_append]
    omega
  · rw [List.take_append_of_le_length (Nat.le_of_lt within)]
    exact appeared.absent
  · rcases Nat.lt_or_ge turns.length m with whole | part
    · have all : (turns ++ [e]).length ≤ m := by rw [List.length_append]; exact whole
      rwa [List.take_of_length_le all, leftBy_snoc]
    · rw [List.take_append_of_le_length part]
      exact appeared.since m later part

/-- What becomes live has its point at the end. -/
theorem new (absent : ¬ Live (leftBy turns) id) (live : Live e.after id) :
    Appeared (turns ++ [e]) id turns.length := by
  refine ⟨by rw [List.length_append]; exact Nat.lt_succ_self _, ?_, fun m later upto => ?_⟩
  · rwa [List.take_append_of_le_length (Nat.le_refl _), List.take_length]
  · have all : (turns ++ [e]).length ≤ m := by rw [List.length_append]; exact later
    rwa [List.take_of_length_le all, leftBy_snoc]

end Appeared

def alive (log : List Version) (id : RecordId) : Bool :=
  (entries log id).getLast?.any fun v => !v.isTombstone

theorem live_iff_alive (logged : Logged past s) (sound : Sound s) (id : RecordId) :
    Live s id.text ↔ alive past id = true := by
  rw [← Store.isDead_eq_false_iff sound.keyed, Store.isDead, logged.latest?_eq, alive]
  cases (entries past id).getLast? with
  | none => simp
  | some v => simp [Version.isTombstone, Version.row]

/-- Points of appearance can be computed from what the turns have appended. -/
theorem Session.appeared_iff (session : Session turns s) {id : RecordId} :
    Appeared turns id.text n ↔ n < turns.length ∧ alive (log (turns.take n)) id = false ∧
      ∀ m, m < turns.length + 1 → n < m → alive (log (turns.take m)) id = true := by
  have live : ∀ m, Live (leftBy (turns.take m)) id.text ↔ alive (log (turns.take m)) id = true := by
    intro m
    have part := session.upto (List.take_prefix m turns)
    exact live_iff_alive part.logged part.backed.sound id
  constructor
  · rintro ⟨within, absent, since⟩
    refine ⟨within, ?_, fun m upto later => (live m).mp (since m later (Nat.le_of_lt_succ upto))⟩
    rwa [live, Bool.not_eq_true] at absent
  · rintro ⟨within, absent, since⟩
    refine ⟨within, ?_, fun m later upto => (live m).mpr (since m (Nat.lt_succ_of_le upto) later)⟩
    rwa [live, Bool.not_eq_true]

/-- The turn is a statement that takes rows out of the index. -/
def Turn.Unlists (s : Store) (e : Turn) : Prop :=
  (∀ o, e.request ≠ .operation o) ∧ e.after.index ≠ s.index

theorem Turn.Follows.trimmed (follows : e.Follows s) (stated : ∀ o, e.request ≠ .operation o) :
    s.Trimmed e.after := by
  obtain ⟨now, request, outcome, after⟩ := e
  cases request with
  | operation o => exact absurd rfl (stated o)
  | query => exact follows.met.2
  | queryOne => exact follows.met.2

/-- How a turn changes the rows of the index: a version that is no deletion adds its record to the
end unless it is there, a deletion removes its own record, and whatever appends no version changes
nothing. -/
structure Turn.Moves (s : Store) (e : Turn) : Prop where
  stays : e.appended? = none → e.after.index = s.index
  updated : ∀ v, e.appended? = some v → v.payload ≠ tombstone → Live s v.id.text →
    e.after.index = s.index
  arrives : ∀ v, e.appended? = some v → v.payload ≠ tombstone → ¬ Live s v.id.text →
    ∃ number, (∀ row ∈ s.index, row.sequence < number) ∧
      e.after.index = s.index ++ [⟨number, v.id.text, v.tag.text⟩]
  leaves : ∀ v, e.appended? = some v → v.payload = tombstone →
    e.after.index = s.index.filter (·.id != v.id.text)

/-- Requests other than changes leave a steady store as it is, statements that take rows away
apart. -/
theorem Turn.Follows.still (follows : e.Follows s) (steady : Steady s) (listed : ¬ e.Unlists s)
    (other : ∀ c, e.request ≠ .operation (.change c)) : e.after = s := by
  by_cases stated : ∀ o, e.request ≠ .operation o
  · exact (follows.trimmed stated).eq (not_not.mp fun moved => listed ⟨stated, moved⟩)
  · obtain ⟨o, asked⟩ := not_forall_not.mp stated
    obtain ⟨now, request, outcome, after⟩ := e
    dsimp only at asked
    subst asked
    have met := congrArg Prod.snd follows.met
    have frame : o.Reads → after = s := fun reading =>
      met.symm.trans (keeps_reading now o reading s)
    cases o with
    | change c => exact absurd rfl (other c)
    | reconcile =>
      have same := reconcile_indexed now steady.sound steady.consistent.indexed
      exact met.symm.trans (congrArg Prod.snd same)
    | _ => exact frame trivial

/-- A turn is a change that appends, or it changes nothing. -/
theorem Turn.Follows.settled (follows : e.Follows s) (logged : Logged past s) (steady : Steady s)
    (listed : ¬ e.Unlists s) :
    e.appended? = none ∧ e.after = s ∨
    ∃ v, e.appended? = some v ∧ e.after = grown s e.now v.id v.tag v.payload ∧ Steady e.after := by
  rcases follows.grows logged with ⟨nothing, same | other⟩ | ⟨c, _, room, _, met, found, same⟩
  · exact .inl ⟨nothing, same⟩
  · exact .inl ⟨nothing, follows.still steady listed other⟩
  · have step : Advance s ⟨e.now, .change c, _, e.after⟩ := ⟨met, nofun⟩
    exact .inr ⟨_, found, same, step.steady steady⟩

theorem Turn.Follows.moves (follows : e.Follows s) (logged : Logged past s) (steady : Steady s)
    (listed : ¬ e.Unlists s) : e.Moves s := by
  have indexed := steady.consistent.indexed
  rcases follows.settled logged steady listed with ⟨nothing, same⟩ | ⟨v, appended, same, _⟩
  · have none_appended : ∀ v, e.appended? ≠ some v := fun v found =>
      Option.some_ne_none v (found.symm.trans nothing)
    exact ⟨fun _ => congrArg Store.index same, fun v found => absurd found (none_appended v),
      fun v found => absurd found (none_appended v), fun v found => absurd found (none_appended v)⟩
  · have only : ∀ u, e.appended? = some u → v = u := fun u found =>
      Option.some.inj (appended.symm.trans found)
    refine ⟨fun nothing => absurd (appended.symm.trans nothing) (Option.some_ne_none v), ?_, ?_, ?_⟩
    · intro u found live present
      cases only u found
      rw [same, grown, if_neg live, if_pos ((indexed _).mpr present)]
    · intro u found live absent
      cases only u found
      refine ⟨s.lastIndex + 1, fun row stored => ?_, ?_⟩
      · have := (steady.sound.index_bounds stored).2.1
        omega
      · rw [same, grown, if_neg live, if_neg fun present => absent ((indexed _).mp present)]
    · intro u found dead
      cases only u found
      rw [same, grown, if_pos dead]

/-- The rows of the index stand for what is live, in the order in which it has appeared. -/
structure Chronicle (turns : List Turn) (s : Store) : Prop where
  steady : Steady s
  appeared : ∀ row ∈ s.index, ∃ n, Appeared turns row.id n
  order : s.index.Pairwise fun a b => ∃ m n, Appeared turns a.id m ∧ Appeared turns b.id n ∧ m < n

/-- Rows may go, and a row may come for what was not live. -/
theorem Chronicle.step {old : List IndexRow} {new : Option IndexRow}
    (chronicle : Chronicle turns (leftBy turns)) (steady : Steady e.after)
    (rows : e.after.index = old ++ new.toList) (part : old.Sublist (leftBy turns).index)
    (fresh : ∀ row, new = some row → ¬ Live (leftBy turns) row.id) :
    Chronicle (turns ++ [e]) e.after := by
  have live : ∀ row ∈ old ++ new.toList, Live e.after row.id := fun row listed =>
    (steady.consistent.indexed row.id).mp
      ((Store.isIndexed_iff e.after row.id).mpr ⟨row, rows ▸ listed, rfl⟩)
  have stay : ∀ row ∈ old, ∀ n, Appeared turns row.id n → Appeared (turns ++ [e]) row.id n :=
    fun row listed n appeared => appeared.snoc (live row (List.mem_append_left _ listed))
  have come : ∀ row ∈ new.toList, Appeared (turns ++ [e]) row.id turns.length := fun row listed =>
    .new (fresh row (Option.mem_toList.mp listed)) (live row (List.mem_append_right _ listed))
  -- What stays was live before the turn and is live after it, so it keeps its point; what comes has
  -- the greatest point of all.
  refine ⟨steady, ?_, ?_⟩
  · intro row listed
    rw [rows] at listed
    rcases List.mem_append.mp listed with old | new
    · obtain ⟨n, appeared⟩ := chronicle.appeared row (part.subset old)
      exact ⟨n, stay row old n appeared⟩
    · exact ⟨_, come row new⟩
  · rw [rows, List.pairwise_append]
    refine ⟨(chronicle.order.sublist part).imp_of_mem ?_, ?_, ?_⟩
    · rintro a b listedA listedB ⟨m, n, first, second, less⟩
      exact ⟨m, n, stay a listedA m first, stay b listedB n second, less⟩
    · cases new <;> simp
    · intro a listedA b listedB
      obtain ⟨m, appeared⟩ := chronicle.appeared a (part.subset listedA)
      exact ⟨m, _, stay a listedA m appeared, come b listedB, appeared.within⟩

theorem Turn.Follows.chronicle (follows : e.Follows (leftBy turns))
    (logged : Logged past (leftBy turns)) (listed : ¬ e.Unlists (leftBy turns))
    (chronicle : Chronicle turns (leftBy turns)) : Chronicle (turns ++ [e]) e.after := by
  have steady := chronicle.steady
  have moves := follows.moves logged steady listed
  have same : e.after.index = (leftBy turns).index → e.after.index =
      (leftBy turns).index ++ (none : Option IndexRow).toList := by simp
  rcases follows.settled logged steady listed with ⟨nothing, kept⟩ | ⟨v, appended, _, after⟩
  · exact chronicle.step (kept ▸ steady) (same (moves.stays nothing)) (List.Sublist.refl _) nofun
  · by_cases dead : v.payload = tombstone
    · have rows : e.after.index = (leftBy turns).index.filter (·.id != v.id.text) ++
          (none : Option IndexRow).toList := by simp [moves.leaves v appended dead]
      exact chronicle.step after rows List.filter_sublist nofun
    · by_cases live : Live (leftBy turns) v.id.text
      · exact chronicle.step after (same (moves.updated v appended dead live))
          (List.Sublist.refl _) nofun
      · obtain ⟨number, _, rows⟩ := moves.arrives v appended dead live
        have fresh : ∀ row, some (⟨number, v.id.text, v.tag.text⟩ : IndexRow) = some row →
            ¬ Live (leftBy turns) row.id := by
          rintro row ⟨⟩
          exact live
        exact chronicle.step after rows (List.Sublist.refl _) fresh

def Untampered (turns : List Turn) : Prop :=
  ∀ front e, front ++ [e] <+: turns → ¬ e.Unlists (leftBy front)

theorem untampered_operations (events : List Event) : Untampered (events.map Turn.ofEvent) := by
  rintro front e part ⟨stated, _⟩
  have member : e ∈ events.map Turn.ofEvent :=
    part.subset (List.mem_append_right _ List.mem_cons_self)
  obtain ⟨event, _, rfl⟩ := List.mem_map.mp member
  exact stated _ rfl

theorem Session.chronicle (session : Session turns s) (untampered : Untampered turns) :
    Chronicle turns s := by
  induction session with
  | nil =>
    exact ⟨⟨.empty, empty_consistent⟩, fun row listed => absurd listed List.not_mem_nil, .nil⟩
  | @snoc turns s e session follows ih =>
    have before := ih fun front other part =>
      untampered front other (part.trans (List.prefix_append turns [e]))
    obtain rfl := session.leftBy_eq
    exact follows.chronicle session.logged (untampered turns e (List.prefix_refl _)) before

/-- Records in the order of the index rows of a tag, newest row first, and what that order is worth:
they are what is live under the tag, most recent appearance first, and every walk with places for
all of them lists them so. -/
structure Recent (turns : List Turn) (s : Store) (tag : Tag) (ids : List RecordId) : Prop where
  rows : ids.map (·.text) = (s.indexRows tag).map (·.id)
  live : ∀ id, id ∈ ids ↔ LiveUnder tag s id
  appeared : ∀ id ∈ ids, ∃ n, Appeared turns id.text n
  order : ids.Pairwise fun a b => ∃ m n, Appeared turns a.text m ∧ Appeared turns b.text n ∧ n < m
  walked : ∀ now sizes, Ample (s.indexRows tag).length sizes →
    ∃ pages, (walk (Store.answer now) tag sizes none).outcome s = (.ok pages, s) ∧
      (shown pages).map (·.id) = ids

theorem Consistent.faithful (valid : Consistent s) (tag : Tag) : Faithful tag s := by
  intro row stored r latest
  rw [valid.rowTag row stored r latest.stored latest.names]

theorem Chronicle.recent (chronicle : Chronicle turns s) (room : ¬ Exhausted tag s) :
    ∃ ids, Recent turns s tag ids := by
  have sound := chronicle.steady.sound
  have valid := chronicle.steady.consistent
  have legible : ∀ row ∈ s.indexRows tag, Store.Legible s row.id :=
    fun row _ => chronicle.steady.legible
  have shows := fun now (sizes : List Nat) (ample : Ample (s.indexRows tag).length sizes) =>
    (walk_all now sound room ample).2 legible
  obtain ⟨_, blocks, _, rows, _⟩ := shows .epoch _ (ample_succ _)
  have live : ∀ id, id ∈ blocks.flatten ↔ LiveUnder tag s id := fun id =>
    mem_ids_live_iff valid.indexed (valid.faithful tag) rows
  refine ⟨blocks.flatten, rows, live, fun id listed => ?_, ?_, fun now sizes ample => ?_⟩
  · obtain ⟨row, stored, names, _⟩ := (mem_ids_iff rows).mp listed
    exact names ▸ chronicle.appeared row stored
  · have newest : (s.indexRows tag).Pairwise fun a b =>
        ∃ m n, Appeared turns a.id m ∧ Appeared turns b.id n ∧ n < m := by
      rw [sound.indexRows_eq, List.pairwise_reverse]
      refine (chronicle.order.filter _).imp ?_
      rintro a b ⟨m, n, first, second, less⟩
      exact ⟨n, m, second, first, less⟩
    have texts : ((s.indexRows tag).map (·.id)).Pairwise fun a b =>
        ∃ m n, Appeared turns a m ∧ Appeared turns b n ∧ n < m := List.pairwise_map.mpr newest
    rw [← rows] at texts
    exact List.pairwise_map.mp texts
  · obtain ⟨pages, others, met, texts, held, _⟩ := shows now sizes ample
    refine ⟨pages, met, ?_⟩
    rw [texts_inj (rows.trans texts.symm)]
    exact shown_ids_live held sound fun _ =>
      (mem_ids_live_iff valid.indexed (valid.faithful tag) texts).mp

theorem Recent.room {ids : List RecordId} (recent : Recent turns s tag ids) (sound : Sound s) :
    ¬ Exhausted tag s := by
  intro full
  obtain ⟨positive, sizes, page, ample, shows, nothing, _⟩ := exhausted_walk .epoch sound full
  obtain ⟨pages, met, listed⟩ := recent.walked .epoch sizes ample
  obtain rfl : pages = [page] := Except.ok.inj (congrArg Prod.fst (met.symm.trans shows))
  rw [shown, List.flatMap_singleton, nothing, List.map_nil] at listed
  have lengths := congrArg List.length recent.rows
  rw [← listed, List.map_nil, List.length_nil, List.length_map] at lengths
  omega

/-- Where all that is live is listed, no statement has just taken a row away. -/
theorem Recent.kept (follows : e.Follows s) (backed : Store.Backed s)
    (recent : ∀ tag, ∃ ids, Recent (turns ++ [e]) e.after tag ids) : ¬ e.Unlists s := by
  rintro ⟨stated, moved⟩
  obtain ⟨kept, after⟩ := follows.trimmed stated
  obtain ⟨row, stored, gone⟩ : ∃ row ∈ s.index, kept row = false := by
    by_contra none_gone
    have same : s.index.filter kept = s.index := List.filter_eq_self.mpr fun row stored =>
      Bool.of_not_eq_false fun gone => none_gone ⟨row, stored, gone⟩
    exact moved ((congrArg Store.index after).trans same)
  obtain ⟨r, latest, live, same⟩ := backed.rows row stored
  obtain ⟨id, tag, names, tagged⟩ := backed.sound.indexTexts row stored
  have history : e.after.versions = s.versions := by rw [after]
  obtain ⟨ids, recent⟩ := recent tag
  have listed := (recent.live id).mpr
    ⟨r, (Store.latest_of_versions_eq history).mpr (names ▸ latest), live, same.trans tagged.symm⟩
  obtain ⟨other, spared, own, _⟩ := (mem_ids_iff recent.rows).mp listed
  rw [after] at spared
  obtain ⟨before, left⟩ := List.mem_filter.mp spared
  rw [backed.sound.keyed.row_unique before stored (own.trans names), gone] at left
  cases left

/-- All along pages list what is live by its appearance, most recent first, and a turn moves nothing
but the record it adds or removes. -/
structure ByAppearance (turns : List Turn) : Prop where
  recent : ∀ front, front <+: turns → ∀ tag, ∃ ids, Recent front (leftBy front) tag ids
  moves : ∀ front e, front ++ [e] <+: turns → e.Moves (leftBy front)

/-- Pages go by appearance exactly as long as no statement takes rows out of the index and no tag
uses the greatest number, and operations alone see to that. -/
theorem pages_by_appearance (session : Session turns s) :
    (ByAppearance turns ↔
      Untampered turns ∧ ∀ front, front <+: turns → ∀ tag, ¬ Exhausted tag (leftBy front)) ∧
    ∀ events, Run .empty events s → turns = events.map Turn.ofEvent → ByAppearance turns := by
  have exactly : ByAppearance turns ↔
      Untampered turns ∧ ∀ front, front <+: turns → ∀ tag, ¬ Exhausted tag (leftBy front) := by
    constructor
    · rintro ⟨recent, _⟩
      refine ⟨fun front e part => ?_, fun front part tag => ?_⟩
      · have before := (List.prefix_append front [e]).trans part
        have all := recent (front ++ [e]) part
        rw [leftBy_snoc] at all
        exact Recent.kept (session.follows part) (session.upto before).backed all
      · obtain ⟨ids, recent⟩ := recent front part tag
        exact recent.room (session.upto part).backed.sound
    · rintro ⟨untampered, room⟩
      have chronicle : ∀ front, front <+: turns → Chronicle front (leftBy front) :=
        fun front part =>
          (session.upto part).chronicle fun f e start => untampered f e (start.trans part)
      refine ⟨fun front part tag => (chronicle front part).recent (room front part tag), ?_⟩
      intro front e part
      have before := (List.prefix_append front [e]).trans part
      exact (session.follows part).moves (session.upto before).logged
        (chronicle front before).steady (untampered front e part)
  refine ⟨exactly, fun events run shape => exactly.mpr ⟨shape ▸ untampered_operations events, ?_⟩⟩
  intro front part tag
  obtain ⟨rest, whole⟩ := shape ▸ part
  obtain ⟨xs, ys, rfl, rfl, _⟩ := List.map_eq_append_iff.mp whole.symm
  obtain ⟨u, run⟩ := run.prefix
  have before : Session (xs.map Turn.ofEvent) u := run.session .nil
  rw [before.leftBy_eq]
  exact run.room tag

def otherId : RecordId := .generated 0 1

def returning : List (Instant × Operation) :=
  [(.epoch, .change (.write default ⟨some default, memoTag, .ok "[1]"⟩)),
    (.epoch, .change (.write default ⟨some otherId, memoTag, .ok "[1]"⟩)),
    (.epoch, .change (.delete default memoTag)),
    (.epoch, .change (.restore default memoTag .epoch))]

def returningTurns : List Turn := (play returning .empty).map Turn.ofEvent

/-- The record that was restored comes first. -/
theorem returned_pages_by_appearance :
    Session returningTurns (left .empty (play returning .empty)) ∧
      ((left .empty (play returning .empty)).indexRows memoTag).map (·.id) =
        [(default : RecordId).text, otherId.text] ∧
      ByAppearance returningTurns := by
  have run := play_run returning .empty (by decide)
  have session : Session returningTurns (left .empty (play returning .empty)) := run.session .nil
  exact ⟨session, by decide +kernel, (pages_by_appearance session).2 _ run rfl⟩

def updating : List (Instant × Operation) :=
  returning.take 2 ++ [(.epoch, .change (.write default ⟨some default, memoTag, .ok "[2]"⟩))]

def resurfaced : List Turn :=
  let lost := Turn.unlisting .epoch (left .empty (play updating .empty))
  (play updating .empty).map Turn.ofEvent ++ [lost] ++ [.of .epoch (.operation .reconcile) lost.after]

/-- The record that appeared first comes first on the pages. -/
theorem resurfaced_out_of_order :
    Session resurfaced (leftBy resurfaced) ∧
      Appeared resurfaced (default : RecordId).text 0 ∧ Appeared resurfaced otherId.text 1 ∧
      ((leftBy resurfaced).indexRows memoTag).map (·.id) =
        [(default : RecordId).text, otherId.text] ∧
      ¬ ∃ ids, Recent resurfaced (leftBy resurfaced) memoTag ids := by
  have run := play_run updating .empty (by decide)
  have repairing : ∀ c, Operation.reconcile ≠ .change c := fun _ => nofun
  have session : Session resurfaced _ :=
    ((run.session .nil).snoc (Turn.unlisting_follows .epoch _)).snoc
      (Turn.of_operation_follows .epoch repairing _)
  have session : Session resurfaced (leftBy resurfaced) := session.leftBy_eq.symm ▸ session
  have first : Appeared resurfaced (default : RecordId).text 0 :=
    session.appeared_iff.mpr (by decide +kernel)
  have second : Appeared resurfaced otherId.text 1 := session.appeared_iff.mpr (by decide +kernel)
  have rows : ((leftBy resurfaced).indexRows memoTag).map (·.id) =
      [(default : RecordId).text, otherId.text] := by decide +kernel
  refine ⟨session, first, second, rows, ?_⟩
  rintro ⟨ids, recent⟩
  obtain rfl : ids = [default, otherId] := texts_inj (recent.rows.trans rows)
  obtain ⟨m, n, appeared, _, less⟩ :=
    (List.pairwise_cons.mp recent.order).1 otherId List.mem_cons_self
  rw [appeared.unique first] at less
  exact Nat.not_lt_zero n less

end RecordLedger.Ledger
