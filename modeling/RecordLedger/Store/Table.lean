import RecordLedger.Query.Plan
import RecordLedger.Store.Basic

/-!
Relations as statements change them, row by row. A row gets a number unless it brings one, its
values take the kinds of their columns, and it may have to go with the rows that are there. A change
that fails for one row fails as a whole.
-/

namespace RecordLedger.Store

/-- The rows of a relation and the greatest number that it has ever used. -/
structure Table (ρ : Type) where
  rows : List ρ
  last : Int

/-- A relation of the store, and which rows it can have. -/
structure Holding (ρ : Type) where
  table : Store → Table ρ
  put : Store → Table ρ → Store
  number : ρ → Int
  values : ρ → Query.Row
  /-- The row with a number and with values for the other columns. -/
  row? : Int → Query.Row → Option ρ
  /-- Whether two rows cannot both be there. -/
  clash : ρ → ρ → Bool
  /-- Whether there is place for a row among so many others. -/
  takes : Nat → ρ → Bool

namespace Holding

variable (h : Holding ρ) (r : Query.Resolution)

/-- Puts a row of values to others. No value may be missing, and rows that clash with it have to
give way; otherwise the row is left out or the change fails. -/
def settle (t : Table ρ) (others : List ρ) (n : Int) (values : Query.Row) :
    Option (Table ρ × Option ρ) :=
  let refused := if r = .ignore then some (t, none) else none
  if values.contains .null then refused
  else do
    let row ← h.row? n values
    if !h.takes others.length row then failure
    if r = .replace || !others.any (h.clash row) then
      return (⟨others.filter (!h.clash row ·) ++ [row], max t.last n⟩, some row)
    else refused

/-- Adds a row. A number that it brings counts as used even if the row is left out. -/
def insert (t : Table ρ) : Query.Row → Option (Table ρ × Option ρ)
  | [] => none
  | number :: values =>
    let chosen := if number = .null then next? t.last else Query.integer? number
    chosen.bind fun n => h.settle r { t with last := max t.last n } t.rows n values

/-- Changes the row with a number, if it is still there. -/
def update (assign : Query.Row → Query.Row) (t : Table ρ) (n : Int) : Option (Table ρ × Option ρ) :=
  match t.rows.find? (h.number · = n) with
  | none => some (t, none)
  | some row =>
    match assign (h.values row) with
    | [] => none
    | number :: values =>
      (Query.integer? number).bind fun m =>
        h.settle r t (t.rows.filter (h.number · ≠ n)) m values

end Holding

/-- One step after the other, and the rows that they made. -/
def Table.each (step : Table ρ → α → Option (Table ρ × Option ρ)) (t : Table ρ) :
    List α → Option (Table ρ × List ρ)
  | [] => some (t, [])
  | x :: xs => do
    let (t, made) ← step t x
    let (t, others) ← each step t xs
    return (t, made.toList ++ others)

/-- A timestamp past the 64-bit range is a floating-point number. -/
def timestampValue (n : Int) : Query.Value :=
  if Word.fitsSigned n then .int n
  else
    let negative := decide (n < 0)
    .real ((Decimal.Binary64.round negative n.natAbs 1).getD (.greatest negative))

def VersionRow.values (r : VersionRow) : Query.Row :=
  [.int r.sequence, .text r.id, .text r.tag, .text r.payload, timestampValue r.timestamp]

def IndexRow.values (r : IndexRow) : Query.Row := [.int r.sequence, .text r.id, .text r.tag]

def text? (v : Query.Value) : Option String :=
  match v.toText with
  | .text s => some s
  | _ => none

def Holding.history : Holding VersionRow where
  table s := ⟨s.versions, s.lastVersion⟩
  put s t := { s with versions := t.rows, lastVersion := t.last }
  number := VersionRow.sequence
  values := VersionRow.values
  row? n
    | [id, tag, payload, timestamp] => do
      return ⟨n, ← text? id, ← text? tag, ← text? payload, ← Query.integer? timestamp⟩
    | _ => none
  clash a b := a.sequence == b.sequence
  takes count r := r.fitsAmong count

/-- An id has at most one index row. -/
def Holding.index : Holding IndexRow where
  table s := ⟨s.index, s.lastIndex⟩
  put s t := { s with index := t.rows, lastIndex := t.last }
  number := IndexRow.sequence
  values := IndexRow.values
  row? n
    | [id, tag] => do return ⟨n, ← text? id, ← text? tag⟩
    | _ => none
  clash a b := a.sequence == b.sequence || a.id == b.id
  takes _ _ := true

end RecordLedger.Store
