import RecordLedger.Store.Table

/-!
Statements run against the store. A statement that would update or delete a row of the history is
refused as a whole, but a row of the history gives way to one that is inserted in its place. The
rows found or returned are read column by column and then decoded like all others.
-/

namespace RecordLedger.Store

/-- Arguments are bound by value: truth values as numbers, arrays and objects as their JSON text. -/
def bound : Json → Except Error Query.Value
  | .null => .ok .null
  | .bool b => .ok (.int (if b then 1 else 0))
  | .int n =>
    if Word.fitsSigned n then .ok (.int n)
    else
      .error (.invalidArgument
        ("integer " ++ String.ofList (Text.Numeral.ofInt n) ++
          " does not fit a 64-bit signed column"))
  | .float x => .ok (.real x)
  | .string s => .ok (.text s)
  | v => .ok (.text v.compact)

def indexInOrder (s : Store) : List IndexRow :=
  Sort.sort (fun a b => decide (a.sequence ≤ b.sequence)) s.index

def contents (s : Store) : Query.Relation → List Query.Row
  | .history => (Sort.sort bySequence s.versions).map VersionRow.values
  | .index => s.indexInOrder.map IndexRow.values

def intAt (row : Query.Row) (i : Nat) : Except Error Int :=
  match row[i]? with
  | some (.int n) => .ok n
  | some _ => .error .columnType
  | none => .error .columnCount

def textAt (row : Query.Row) (i : Nat) : Except Error String :=
  match row[i]? with
  | some (.text s) => .ok s
  | some _ => .error .columnType
  | none => .error .columnCount

/-- Reads the columns of a version from the left; further columns are not looked at. -/
def readRow (row : Query.Row) : Except Error VersionRow := do
  let sequence ← intAt row 0
  let id ← textAt row 1
  let tag ← textAt row 2
  let payload ← textAt row 3
  let timestamp ← intAt row 4
  return ⟨sequence, id, tag, payload, timestamp⟩

/-- What a change answers: the rows that it is to return, which are read like those found. -/
def returned (args : List Query.Value) (returning : Option (List Query.Term))
    (rows : List Query.Row) : Except Error (List Version) :=
  match returning with
  | none => .ok []
  | some terms =>
    ((rows.map fun r => terms.map (·.value args r)).mapM readRow).bind readVersions

/-- The store with a relation changed, if the change has not failed. -/
def changed (h : Holding ρ) (args : List Query.Value) (returning : Option (List Query.Term))
    (s : Store) : Option (Table ρ × List ρ) → Except Error (List Version) × Store
  | none => (.error .statement, s)
  | some (t, made) => (returned args returning (made.map h.values), h.put s t)

def placed (places : List (Option Nat)) (row : Query.Row) : Query.Row :=
  places.map fun place => (place.bind (row[·]?)).getD .null

def assigned (args : List Query.Value) (values : List (Option Query.Term)) (row : Query.Row) :
    Query.Row :=
  values.zipWith (fun value old => (value.map (·.value args row)).getD old) row

def picks (args : List Query.Value) (condition : Option Query.Term) (row : Query.Row) : Bool :=
  condition.all (·.selects args row)

/-- The history lets no row be updated or deleted. -/
def guarded (args : List Query.Value) (condition : Option Query.Term)
    (returning : Option (List Query.Term)) (s : Store) : Except Error (List Version) × Store :=
  if s.versions.any (picks args condition ·.values) then (.error .statement, s)
  else (returned args returning [], s)

def perform (args : List Query.Value) (s : Store) :
    Query.Directive → Except Error (List Version) × Store
  | .rows plan =>
    match plan.rows? s.contents args with
    | none => (.error .statement, s)
    | some rows => ((rows.mapM readRow).bind readVersions, s)
  | .insert r relation places plan returning =>
    let rows := (plan.rows? s.contents args).map (·.map (placed places))
    match relation with
    | .history =>
      changed .history args returning s
        (rows.bind ((Holding.history.table s).each (Holding.history.insert r)))
    | .index =>
      changed .index args returning s
        (rows.bind ((Holding.index.table s).each (Holding.index.insert r)))
  | .update _ .history _ condition returning => guarded args condition returning s
  | .update r .index values condition returning =>
    let picked := s.indexInOrder.filter (picks args condition ·.values)
    changed .index args returning s
      ((Holding.index.table s).each (Holding.index.update r (assigned args values))
        (picked.map (·.sequence)))
  | .delete .history condition returning => guarded args condition returning s
  | .delete .index condition returning =>
    let picked := s.indexInOrder.filter (picks args condition ·.values)
    (returned args returning (picked.map IndexRow.values),
      { s with index := s.index.filter fun r => !picks args condition r.values })

def tooLong : Query.Value → Bool
  | .text s => decide (maxBytes < s.utf8ByteSize)
  | _ => false

/-- What a text says to do, and with how many arguments. -/
def resolved? (sql : String) : Option (Nat × Query.Directive) :=
  if maxBytes < sql.utf8ByteSize then none
  else (Query.Statement.ofText? sql).bind fun st => st.directive?.map (st.parameters, ·)

/-- Runs a statement: the arguments are converted, the text is resolved, the arguments are bound one
by one, and their number is checked before any row is looked at. -/
def query (sql : String) (args : List Json) (s : Store) : Except Error (List Version) × Store :=
  match args.mapM bound with
  | .error e => (.error e, s)
  | .ok values =>
    match resolved? sql with
    | none => (.error .statement, s)
    | some (parameters, directive) =>
      if (values.take parameters).any tooLong then (.error .statement, s)
      else if parameters ≠ values.length then (.error .parameterCount, s)
      else s.perform values directive

end RecordLedger.Store
