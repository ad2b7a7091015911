import RecordLedger.Ledger.Action

/-!
Drift between the index and the history, and its repair. An audit changes nothing; each repair looks
at the latest version again in the same call that changes the index, so an audit may be out of date.
-/

namespace RecordLedger.Ledger

/-- A record with its tag, as an audit names it. -/
structure Drift where
  id : RecordId
  tag : Tag
deriving DecidableEq

structure IndexReport where
  /-- Live records without an index row. -/
  missing : List Drift
  /-- Index rows of records that are deleted or have no history. -/
  stale : List Drift
deriving DecidableEq

def IndexReport.isConsistent (r : IndexReport) : Bool := r.missing.isEmpty && r.stale.isEmpty

def audit (b : Store.Backend σ) : Action σ IndexReport := do
  let missing ← call b .unindexedLive
  let stale ← call b .staleIndexRows
  return ⟨missing.map fun (id, tag) => ⟨id, tag⟩, stale.map fun e => ⟨e.id, e.tag⟩⟩

/-- Tries a repair for each entry and keeps those that it changed. -/
def repairEach (repair : Drift → Action σ Bool) : List Drift → Action σ (List Drift)
  | [] => return []
  | d :: rest => do
    let changed ← repair d
    let repaired ← repairEach repair rest
    return if changed then d :: repaired else repaired

def repair (b : Store.Backend σ) (found : IndexReport) : Action σ IndexReport := do
  let missing ← repairEach (fun d => call b (.indexIfLive d.id d.tag)) found.missing
  let stale ← repairEach (fun d => call b (.unindexIfDead d.id)) found.stale
  return ⟨missing, stale⟩

def reconcile (b : Store.Backend σ) : Action σ IndexReport := do
  repair b (← audit b)

end RecordLedger.Ledger
