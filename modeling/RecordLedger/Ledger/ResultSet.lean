import RecordLedger.Ledger.Action

/-!
Result sets: versions that are drained once, from the front, as they are or decoded. The first
version that cannot be decoded stops the set.
-/

namespace RecordLedger

class Decodable (α : Type) where
  decode? : String → Option α
  /-- Gives a value its node. -/
  place : Node → α → α

namespace Version

/-- The value of a version of a record created at `created`. -/
def decode? [Decodable α] (v : Version) (created : Instant) : Option α :=
  (Decodable.decode? v.payload).map (Decodable.place (.ofVersion v created))

end Version

instance : Decodable Node where
  decode? payload := (Json.Form.ofText? payload.toList).bind Node.ofForm?
  place node _ := node

namespace Ledger

structure PageInfo where
  total : Nat
  /-- There are newer rows before the page. -/
  hasNext : Bool
  /-- There are older rows after the page. -/
  hasPrevious : Bool
  startId : Option RecordId
  endId : Option RecordId
deriving DecidableEq

namespace PageInfo

def empty : PageInfo := ⟨0, false, false, none, none⟩

def unpaginated (records : List Version) : PageInfo :=
  ⟨records.length, false, false, records.head?.map (·.id), records.getLast?.map (·.id)⟩

def describeOption : Option String → String
  | none => "None"
  | some s => "Some(" ++ s ++ ")"

def describe (p : PageInfo) : String :=
  "PageInfo \x7b total: " ++ String.ofList (Text.Numeral.ofNat p.total) ++
    ", has_next: " ++ (if p.hasNext then "true" else "false") ++
    ", has_previous: " ++ (if p.hasPrevious then "true" else "false") ++
    ", start_id: " ++ describeOption (p.startId.map RecordId.describe) ++
    ", end_id: " ++ describeOption (p.endId.map RecordId.describe) ++ " \x7d"

end PageInfo

structure ResultSet where
  remaining : List Version
  page : PageInfo
  failure : Option Error

/-- Decodes a version, with the timestamp of its record's first version as the creation time. -/
def scan (b : Store.Backend σ) [Decodable α] (v : Version) : Action σ α := do
  let created ← call b (.earliestTimestamp v.id)
  match v.decode? (created.getD v.timestamp) with
  | none => throw (.undecodable v.tag v.id v.sequence)
  | some x => return x

namespace ResultSet

def unpaginated (records : List Version) : ResultSet := ⟨records, .unpaginated records, none⟩

def length (r : ResultSet) : Nat := if r.failure.isSome then 0 else r.remaining.length

def isEmpty (r : ResultSet) : Bool := r.length == 0

/-- The least and the greatest number of versions an iteration will meet. -/
def sizeHint (r : ResultSet) : Nat × Option Nat := (r.length, some r.length)

def next (r : ResultSet) : Option Version × ResultSet :=
  if r.failure.isSome then (none, r)
  else
    match r.remaining with
    | [] => (none, r)
    | v :: rest => (some v, { r with remaining := rest })

/-- Takes the next version and decodes it; a failure is kept. -/
def scanNext (b : Store.Backend σ) [Decodable α] (r : ResultSet) :
    StateM σ (Option α × ResultSet) := do
  match r.next with
  | (none, r) => return (none, r)
  | (some v, r) =>
    match ← (scan b v).run with
    | .ok x => return (some x, r)
    | .error e => return (none, { r with failure := some e })

theorem next_shorter {r rest : ResultSet} {v : Version} (met : r.next = (some v, rest)) :
    rest.remaining.length < r.remaining.length := by
  unfold next at met
  split at met
  · cases met
  · split at met
    · cases met
    · next shape =>
      cases met
      rw [shape]
      exact Nat.lt_succ_self _

theorem scanNext_run {b : Store.Backend σ} [Decodable α] {r rest : ResultSet} {v : Version}
    (met : r.next = (some v, rest)) (s : σ) :
    (r.scanNext b : StateM σ (Option α × ResultSet)).run s =
      match (scan b v : Action σ α).outcome s with
      | (.ok x, t) => ((some x, rest), t)
      | (.error e, t) => ((none, { rest with failure := some e }), t) := by
  simp only [scanNext, met, Action.outcome, StateT.run_bind]
  generalize (scan b v : Action σ α).run.run s = answered
  obtain ⟨answer, t⟩ := answered
  cases answer <;> rfl

theorem scanNext_shorter {b : Store.Backend σ} [Decodable α] {r rest : ResultSet} {x : α} {s t : σ}
    (met : (r.scanNext b).run s = ((some x, rest), t)) :
    rest.remaining.length < r.remaining.length := by
  cases found : r.next with
  | mk taken after =>
    cases taken with
    | none =>
      rw [scanNext, found] at met
      cases met
    | some v =>
      rw [scanNext_run found] at met
      split at met
      · cases met
        exact next_shorter found
      · cases met

def scanEach (b : Store.Backend σ) [Decodable α] (r : ResultSet) (s : σ) :
    (List α × ResultSet) × σ :=
  match _ : (r.scanNext b).run s with
  | ((none, r), s) => (([], r), s)
  | ((some x, rest), s) =>
    let ((xs, r), s) := rest.scanEach b s
    ((x :: xs, r), s)
termination_by r.remaining.length
decreasing_by exact scanNext_shorter ‹_›

def finish (r : ResultSet) : Except Error Unit :=
  match r.failure with
  | some e => .error e
  | none => .ok ()

def scanAll (b : Store.Backend σ) [Decodable α] (r : ResultSet) : Action σ (List α) :=
  ExceptT.mk fun s =>
    let ((xs, r), s) := r.scanEach b s
    (r.finish.map fun _ => xs, s)

def intoRecords (r : ResultSet) : List Version := r.remaining

def describe (r : ResultSet) : String :=
  "ResultSet \x7b remaining: " ++ String.ofList (Text.Numeral.ofNat r.remaining.length) ++
    ", page: " ++ r.page.describe ++
    ", err: " ++ PageInfo.describeOption (r.failure.map Error.describe) ++ " \x7d"

end ResultSet
end Ledger
end RecordLedger
