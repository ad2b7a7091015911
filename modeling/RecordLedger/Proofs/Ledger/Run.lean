import RecordLedger.Proofs.Ledger.Change

/-! Runs of a ledger over one store: any operations in any order, each at its own reading of the
clock, as long as no call on the store fails. -/
namespace RecordLedger.Ledger

/-- Everything a ledger can be asked, ad hoc statements apart. -/
inductive Operation : Type 1
  | change (c : Change)
  | read (id : RecordId) (tag : Tag)
  | history (id : RecordId)
  | fetch (tag : Tag) (first : Nat) (before : Option RecordId)
  | fetchIn (ids : List RecordId)
  | scan {α : Type} [Decodable α] (v : Version)
  | audit
  | reconcile

abbrev Operation.Answer : Operation → Type
  | .change _ => Version
  | .read .. => Version
  | .history _ => ResultSet
  | .fetch .. => ResultSet
  | .fetchIn _ => ResultSet
  | @Operation.scan α _ _ => α
  | .audit => IndexReport
  | .reconcile => IndexReport

def Operation.perform (b : Store.Backend σ) : (o : Operation) → Action σ o.Answer
  | .change c => c.perform b
  | .read id tag => Ledger.read b id tag
  | .history id => Ledger.history b id
  | .fetch tag first before => Ledger.fetch b tag first before
  | .fetchIn ids => Ledger.fetchIn b ids
  | @Operation.scan α _ v => Ledger.scan (α := α) b v
  | .audit => Ledger.audit b
  | .reconcile => Ledger.reconcile b

def Operation.Reads : Operation → Prop
  | .change _ | .reconcile => False
  | _ => True

/-- An operation as it took place: the clock reading it met, its outcome and the store it left. -/
structure Event : Type 1 where
  now : Instant
  operation : Operation
  outcome : Except Error operation.Answer
  after : Store

/-- The event can take place in a store. A failing call is never caught, so it would show as the
outcome. -/
structure Advance (s : Store) (e : Event) : Prop where
  met : (e.operation.perform (Store.answer e.now)).outcome s = (e.outcome, e.after)
  undisturbed : ∀ f, e.outcome ≠ .error (.store f)

def Event.of (now : Instant) (o : Operation) (s : Store) : Event :=
  ⟨now, o, ((o.perform (Store.answer now)).outcome s).1,
    ((o.perform (Store.answer now)).outcome s).2⟩

inductive Run : Store → List Event → Store → Prop
  | nil : Run s [] s
  | cons : Advance s e → Run e.after events t → Run s (e :: events) t

theorem Run.append (first : Run s xs u) (second : Run u ys t) : Run s (xs ++ ys) t := by
  induction first with
  | nil => exact second
  | cons step _ ih => exact .cons step (ih second)

theorem Run.prefix (run : Run s (xs ++ ys) t) : ∃ u, Run s xs u := by
  induction xs generalizing s with
  | nil => exact ⟨s, .nil⟩
  | cons e xs ih =>
    cases run with
    | cons step rest =>
      obtain ⟨u, run⟩ := ih rest
      exact ⟨u, .cons step run⟩

theorem Run.invariant (P : Store → Prop) (kept : ∀ s e, P s → Advance s e → P e.after)
    (run : Run s events t) (start : P s) : P t := by
  induction run with
  | nil => exact start
  | cons step _ ih => exact ih (kept _ _ start step)

def play : List (Instant × Operation) → Store → List Event
  | [], _ => []
  | (now, o) :: rest, s => Event.of now o s :: play rest (Event.of now o s).after

def left (s : Store) : List Event → Store
  | [] => s
  | e :: rest => left e.after rest

theorem play_run (steps : List (Instant × Operation)) (s : Store)
    (passed : ∀ e ∈ play steps s, e.outcome.isOk = true) :
    Run s (play steps s) (left s (play steps s)) := by
  induction steps generalizing s with
  | nil => exact .nil
  | cons step rest ih =>
    obtain ⟨now, o⟩ := step
    refine .cons ⟨rfl, fun f failed => ?_⟩ (ih _ fun e member => passed e (.tail _ member))
    have first := passed (Event.of now o s) (.head _)
    rw [failed] at first
    cases first

end RecordLedger.Ledger
