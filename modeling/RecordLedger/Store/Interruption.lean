import RecordLedger.Store.Call

/-!
Interruptions: what is planned to happen in the middle of an operation. An interruption waits for a
call of one kind; there it lets other calls take place first, as other users of the store would
make them, and may then make the awaited call fail without any effect.
-/

namespace RecordLedger.Store

inductive Method
  | insertVersion
  | latestVersion
  | versionAt
  | versions
  | earliestTimestamp
  | tagOf
  | latestVersionsIn
  | query
  | upsertIndex
  | removeIndex
  | indexEntry
  | indexCount
  | indexMaxSequence
  | indexWindow
  | indexIdsBefore
  | unindexedLive
  | staleIndexRows
  | indexIfLive
  | unindexIfDead
  | stats
deriving DecidableEq, Repr

def Call.method : Call → Method
  | .insertVersion .. => .insertVersion
  | .latestVersion .. => .latestVersion
  | .versionAt .. => .versionAt
  | .versions _ => .versions
  | .earliestTimestamp _ => .earliestTimestamp
  | .tagOf _ => .tagOf
  | .latestVersionsIn _ => .latestVersionsIn
  | .query .. => .query
  | .upsertIndex .. => .upsertIndex
  | .removeIndex _ => .removeIndex
  | .indexEntry .. => .indexEntry
  | .indexCount _ => .indexCount
  | .indexMaxSequence _ => .indexMaxSequence
  | .indexWindow .. => .indexWindow
  | .indexIdsBefore .. => .indexIdsBefore
  | .unindexedLive => .unindexedLive
  | .staleIndexRows => .staleIndexRows
  | .indexIfLive .. => .indexIfLive
  | .unindexIfDead _ => .unindexIfDead
  | .stats => .stats

structure Interruption where
  method : Method
  /-- How many calls of the kind pass before. -/
  skip : Nat
  calls : List Call
  failure : Option Error

/-- A store with the interruptions that are still to come. -/
structure Interrupted (σ : Type) where
  store : σ
  pending : List Interruption

/-- Looks at the first interruption that waits for a kind of call: one that still lets calls pass
counts this one, any other is taken out. -/
def Interruption.take (m : Method) : List Interruption → Option Interruption × List Interruption
  | [] => (none, [])
  | i :: rest =>
    if i.method = m then
      if 0 < i.skip then (none, { i with skip := i.skip - 1 } :: rest) else (some i, rest)
    else
      let (found, rest) := take m rest
      (found, i :: rest)

namespace Backend

def runAll (b : Backend σ) (calls : List Call) (s : σ) : σ :=
  calls.foldl (fun s c => (b c s).2) s

def interrupted (b : Backend σ) : Backend (Interrupted σ) := fun c s =>
  match Interruption.take c.method s.pending with
  | (none, pending) =>
    let (answer, store) := b c s.store
    (answer, ⟨store, pending⟩)
  | (some i, pending) =>
    let store := b.runAll i.calls s.store
    match i.failure with
    | some e => (.error e, ⟨store, pending⟩)
    | none =>
      let (answer, store) := b c store
      (answer, ⟨store, pending⟩)

end Backend
end RecordLedger.Store
