import RecordLedger.Ledger.ResultSet

/-!
Reading a ledger: the latest version of a record, its history, the latest versions of many records
and ad hoc statements.
-/

namespace RecordLedger.Ledger

def read (b : Store.Backend σ) (id : RecordId) (tag : Tag) : Action σ Version := do
  match ← call b (.latestVersion id tag) with
  | none => throw (.missing (.record tag id))
  | some v => return v

def history (b : Store.Backend σ) (id : RecordId) : Action σ ResultSet := do
  return .unpaginated (← call b (.versions id))

/-- One version for each id that has one, in the order in which the ids first occur. -/
def arranged (ids : List RecordId) (found : List Version) : List Version :=
  ids.eraseDups.filterMap fun id => found.reverse.find? (·.id = id)

def latestInOrder (b : Store.Backend σ) (ids : List RecordId) : Action σ (List Version) := do
  return arranged ids (← call b (.latestVersionsIn ids))

def fetchIn (b : Store.Backend σ) (ids : List RecordId) : Action σ ResultSet := do
  return .unpaginated (← latestInOrder b ids)

/-- Runs a statement that has the shape of a read. -/
def query (b : Store.Backend σ) (sql : String) (args : List Json) : Action σ ResultSet := do
  match Query.violation? sql with
  | some violation => throw (.shape violation)
  | none => return .unpaginated (← call b (.query sql args))

def queryOne (b : Store.Backend σ) (sql : String) (args : List Json) : Action σ Version := do
  match (← query b sql args).next.1 with
  | none => throw (.missing .row)
  | some v => return v

end RecordLedger.Ledger
