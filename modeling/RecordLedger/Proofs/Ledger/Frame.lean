import RecordLedger.Proofs.Ledger.Page
import RecordLedger.Proofs.Ledger.Run

/-! What operations leave alone. Reading operations make reading calls only, and no operation makes
an ad hoc statement. -/
namespace RecordLedger

def Store.Method.reads : Store.Method → Bool
  | .insertVersion | .query | .upsertIndex | .removeIndex | .indexIfLive | .unindexIfDead => false
  | _ => true

theorem Store.answer_reads (now : Instant) (c : Store.Call) (reading : c.method.reads = true)
    (s : Store) : (Store.answer now c s).2 = s := by
  cases c <;> first | rfl | cases reading

namespace Ledger

variable {σ : Type} {b : Store.Backend σ} {P : σ → Prop}

section Reading

variable (kept : ∀ c : Store.Call, c.method.reads = true → ∀ s, P s → P (b c s).2)
include kept

theorem keeps_read (id : RecordId) (tag : Tag) : Action.Keeps P (read b id tag) := by
  refine Action.keeps_bind (Action.keeps_call (kept _ rfl)) fun found => ?_
  cases found
  · exact Action.keeps_throw _
  · exact Action.keeps_pure _

theorem keeps_history (id : RecordId) : Action.Keeps P (history b id) :=
  Action.keeps_bind (Action.keeps_call (kept _ rfl)) fun _ => Action.keeps_pure _

theorem keeps_latestInOrder (ids : List RecordId) : Action.Keeps P (latestInOrder b ids) :=
  Action.keeps_bind (Action.keeps_call (kept _ rfl)) fun _ => Action.keeps_pure _

theorem keeps_fetchIn (ids : List RecordId) : Action.Keeps P (fetchIn b ids) :=
  Action.keeps_bind (keeps_latestInOrder kept ids) fun _ => Action.keeps_pure _

theorem keeps_anchor (tag : Tag) (id : RecordId) : Action.Keeps P (anchor b tag id) := by
  refine Action.keeps_bind (Action.keeps_call (kept _ rfl)) fun found => ?_
  cases found
  · exact Action.keeps_throw _
  · exact Action.keeps_pure _

theorem keeps_fetch (tag : Tag) (first : Nat) (before : Option RecordId) :
    Action.Keeps P (fetch b tag first before) := by
  by_cases zero : first = 0
  · subst zero
    exact Action.keeps_throw _
  rw [fetch_eq b tag first before (by omega)]
  refine Action.keeps_bind (Action.keeps_call (kept _ rfl)) fun total => ?_
  refine Action.keeps_bind (Action.keeps_call (kept _ rfl)) fun newest => ?_
  cases newest with
  | none => exact Action.keeps_pure _
  | some newest =>
    have limited : Action.Keeps P (pageLimit b tag before newest) := by
      cases before with
      | none => exact Action.keeps_pure _
      | some id => exact keeps_anchor kept tag id
    exact Action.keeps_bind limited fun _ =>
      Action.keeps_bind (Action.keeps_call (kept _ rfl)) fun _ =>
      Action.keeps_bind (Action.keeps_call (kept _ rfl)) fun _ =>
      Action.keeps_bind (keeps_latestInOrder kept _) fun _ => Action.keeps_pure _

theorem keeps_scan [Decodable α] (v : Version) : Action.Keeps P (scan (α := α) b v) := by
  refine Action.keeps_bind (Action.keeps_call (kept _ rfl)) fun created => ?_
  split
  · exact Action.keeps_throw _
  · exact Action.keeps_pure _

theorem keeps_audit : Action.Keeps P (audit b) :=
  Action.keeps_bind (Action.keeps_call (kept _ rfl)) fun _ =>
    Action.keeps_bind (Action.keeps_call (kept _ rfl)) fun _ => Action.keeps_pure _

end Reading

/-- An operation that neither appends nor repairs leaves the store as it was. -/
theorem keeps_reading (now : Instant) (o : Operation) (reading : o.Reads) (s : Store) :
    ((o.perform (Store.answer now)).outcome s).2 = s := by
  have same : ∀ c : Store.Call, c.method.reads = true → ∀ t, t = s →
      (Store.answer now c t).2 = s := by
    rintro c reads t rfl
    exact Store.answer_reads now c reads t
  cases o with
  | change c => cases reading
  | reconcile => cases reading
  | read id tag => exact keeps_read same id tag s rfl
  | history id => exact keeps_history same id s rfl
  | fetch tag first before => exact keeps_fetch same tag first before s rfl
  | fetchIn ids => exact keeps_fetchIn same ids s rfl
  | scan v => exact keeps_scan same v s rfl
  | audit => exact keeps_audit same s rfl

section Changing

variable (kept : ∀ c : Store.Call, c.method ≠ .query → ∀ s, P s → P (b c s).2)
include kept

theorem keeps_append (id : RecordId) (tag : Tag) (payload : String) :
    Action.Keeps P (append b id tag payload) := by
  refine Action.keeps_bind (Action.keeps_call (kept _ nofun)) fun v => ?_
  refine Action.keeps_bind ?_ fun _ => Action.keeps_pure _
  unfold syncIndex
  split
  · exact Action.keeps_bind (Action.keeps_call (kept _ nofun)) fun _ => Action.keeps_pure _
  · exact Action.keeps_bind (Action.keeps_call (kept _ nofun)) fun _ => Action.keeps_pure _

theorem keeps_change (c : Change) : Action.Keeps P (c.perform b) := by
  have ordinary : c.lookup.method ≠ .query := by cases c <;> nofun
  rw [c.perform_eq]
  refine Action.keeps_bind (Action.keeps_call (kept _ ordinary)) fun found => ?_
  cases c.settle found with
  | error e => exact Action.keeps_throw e
  | ok payload => exact keeps_append kept c.id c.tag payload

omit kept in
theorem keeps_repairEach {repair : Drift → Action σ Bool} (each : ∀ d, Action.Keeps P (repair d))
    (entries : List Drift) : Action.Keeps P (repairEach repair entries) := by
  induction entries with
  | nil => exact Action.keeps_pure _
  | cons d rest ih =>
    exact Action.keeps_bind (each d) fun _ => Action.keeps_bind ih fun _ => Action.keeps_pure _

omit kept in
theorem keeps_repair (listing : ∀ id tag, Action.Keeps P (call b (.indexIfLive id tag)))
    (dropping : ∀ id, Action.Keeps P (call b (.unindexIfDead id))) (found : IndexReport) :
    Action.Keeps P (repair b found) := by
  have missing := keeps_repairEach (fun d => listing d.id d.tag) found.missing
  have stale := keeps_repairEach (fun d => dropping d.id) found.stale
  exact Action.keeps_bind missing fun _ => Action.keeps_bind stale fun _ => Action.keeps_pure _

theorem keeps_operation (o : Operation) : Action.Keeps P (o.perform b) := by
  have reading : ∀ c : Store.Call, c.method.reads = true → ∀ s, P s → P (b c s).2 :=
    fun c reads => kept c (by intro same; rw [same] at reads; cases reads)
  cases o with
  | change c => exact keeps_change kept c
  | read id tag => exact keeps_read reading id tag
  | history id => exact keeps_history reading id
  | fetch tag first before => exact keeps_fetch reading tag first before
  | fetchIn ids => exact keeps_fetchIn reading ids
  | scan v => exact keeps_scan reading v
  | audit => exact keeps_audit reading
  | reconcile =>
    refine Action.keeps_bind (keeps_audit reading) fun found => keeps_repair ?_ ?_ found
    · exact fun id tag => Action.keeps_call (kept _ nofun)
    · exact fun id => Action.keeps_call (kept _ nofun)

end Changing

/-- Every store of a run is one that calls lead to. -/
theorem Advance.reached (step : Advance s e) (reached : Store.Reached s) :
    Store.Reached e.after := by
  have kept := keeps_operation (b := Store.answer e.now) (P := Store.Reached)
    (fun c ordinary _ reached => .call reached e.now c ordinary) e.operation s reached
  rwa [step.met] at kept

end Ledger
end RecordLedger
