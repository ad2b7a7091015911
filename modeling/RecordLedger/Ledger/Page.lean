import RecordLedger.Ledger.Lookup

/-!
Pages of the current records of a tag, newest first. A page starts at the newest record or just
behind a given one, so that the end of one page leads to the next; whether there is more on either
side is read from counts of the index, never from the length of the page.
-/

namespace RecordLedger.Ledger

/-- The sequence number of the record that a page starts behind. -/
def anchor (b : Store.Backend σ) (tag : Tag) (id : RecordId) : Action σ Nat := do
  match ← call b (.indexEntry id tag) with
  | none => throw (.missing (.anchor tag id))
  | some entry => return entry.sequence

/-- The sequence number below which a page selects its rows. -/
def pageLimit (b : Store.Backend σ) (tag : Tag) (before : Option RecordId) (latest : Nat) :
    Action σ Nat :=
  match before with
  | some id => anchor b tag id
  | none => return latest + 1

/-- The page that a count, a window and the selected ids make. -/
def pageInfo (before : Option RecordId) (total : Nat) (window : Store.Window)
    (ids : List RecordId) : PageInfo :=
  let (hasNext, hasPrevious) :=
    if before.isSome then (decide (0 < window.after), decide (ids.length < window.before))
    else (false, decide (ids.length < total))
  ⟨total, hasNext, hasPrevious, ids.head?, ids.getLast?⟩

def fetch (b : Store.Backend σ) (tag : Tag) (first : Nat) (before : Option RecordId) :
    Action σ ResultSet := do
  if first = 0 then throw .emptyPage
  let total ← call b (.indexCount tag)
  match ← call b (.indexMaxSequence tag) with
  | none => return ⟨[], { PageInfo.empty with total }, none⟩
  | some latest =>
    let limit ← pageLimit b tag before latest
    let window ← call b (.indexWindow tag limit)
    let ids ← call b (.indexIdsBefore tag limit first)
    let records ← latestInOrder b ids
    return ⟨records.filter (·.tag = tag), pageInfo before total window ids, none⟩

end RecordLedger.Ledger
