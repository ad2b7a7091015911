import RecordLedger.Query.Statement
import RecordLedger.Sort

/-!
Plans: statements whose names have been resolved. A statement that names something unknown has no
plan, so it is refused before any row is looked at; only a limit that is no integer is found later.
-/

namespace RecordLedger.Query

inductive Relation
  | history
  | index
deriving DecidableEq, Repr

structure Column where
  name : String
  affinity : Affinity
deriving DecidableEq, Repr

namespace Relation

def name : Relation → String
  | .history => historyName
  | .index => "record_index"

def ofName? (name : String) : Option Relation :=
  [Relation.history, Relation.index].find? (·.name = name)

def columns : Relation → List Column
  | .history =>
    [⟨"sequence", .integer⟩, ⟨"id", .text⟩, ⟨"data_type", .text⟩, ⟨"payload", .text⟩,
      ⟨"timestamp", .integer⟩]
  | .index => [⟨"sequence", .integer⟩, ⟨"id", .text⟩, ⟨"data_type", .text⟩]

end Relation

abbrev Term := Expr Slot
abbrev Row := List Value

inductive Plan
  | scan (r : Relation)
  | values (rows : List (List Term))
  | select (source : Plan) (condition : Option Term) (order : List (Term × Bool))
      (limit offset : Option Term) (outputs : List Term)
deriving DecidableEq, Repr

structure Planned where
  plan : Plan
  columns : List Column

/-- A statement by what it does. What a change returns is given by terms over the columns of its
relation. -/
inductive Directive
  | rows (plan : Plan)
  /-- The places tell for each column which value of a row is meant for it. -/
  | insert (resolution : Resolution) (relation : Relation) (places : List (Option Nat))
    (rows : Plan) (returning : Option (List Term))
  /-- The values are given column by column; a column without one is left as it is. -/
  | update (resolution : Resolution) (relation : Relation) (values : List (Option Term))
    (condition : Option Term) (returning : Option (List Term))
  | delete (relation : Relation) (condition : Option Term) (returning : Option (List Term))
deriving DecidableEq, Repr

/-- The columns that names may refer to. -/
structure Scope where
  relation : Option String
  columns : List Column

namespace Scope

def slots (s : Scope) : List Term :=
  s.columns.mapIdx fun i c => .column ⟨i, c.affinity⟩

def find? (s : Scope) (n : Name) : Option Term :=
  if n.relation.isNone || n.relation = s.relation then
    ((s.columns.zip s.slots).find? (·.1.name = n.column)).map (·.2)
  else none

/-- The columns of the relation come before the names given to outputs. -/
def resolve? (s : Scope) (named : List (String × Term)) (n : Name) : Option Term :=
  (s.find? n).orElse fun _ =>
    (if n.relation.isNone then (named.find? (·.1 = n.column)).map (·.2) else none).orElse fun _ =>
      n.fallback.map .literal

end Scope

structure Shown where
  column : Column
  term : Term
  named : Bool

def nameOf : Expr Name → String
  | .column n => n.column
  | _ => ""

def Output.resolve? (scope : Scope) : Output → Option (List Shown)
  | .all relation =>
    if scope.relation.isNone || (relation.isSome && relation != scope.relation) then none
    else some ((scope.columns.zip scope.slots).map fun (c, t) => ⟨c, t, false⟩)
  | .expr e label => do
    let t ← e.resolve? (scope.resolve? [])
    return [⟨⟨label.getD (nameOf e), t.affinity⟩, t, label.isSome⟩]

/-- A key that is a number stands for an output by place, one that is the name of an output for
that output. -/
def Key.resolve? (scope : Scope) (shown : List Shown) (named : List (String × Term)) (k : Key) :
    Option (Term × Bool) := do
  let general := k.expr.resolve? (scope.resolve? named)
  let term ← match k.expr with
    | .literal (.int n) => if n < 1 then none else shown[n.toNat - 1]?.map (·.term)
    | .column ⟨none, c, _⟩ => ((named.find? (·.1 = c)).map (·.2)).orElse fun _ => general
    | _ => general
  return (term, k.descending)

def optional? (e : Option (Expr Name)) (f : Name → Option Term) : Option (Option Term) :=
  match e with
  | none => some none
  | some e => (e.resolve? f).map some

def Selection.plan? (s : Selection) (table? : String → Option Planned) : Option Planned := do
  let (source, scope) ← match s.source with
    | none => some (Plan.values [[]], Scope.mk none [])
    | some src => (table? src.relation).map fun p => (p.plan, Scope.mk (some src.label) p.columns)
  let shown := (← s.outputs.mapM (·.resolve? scope)).flatten
  let named := (shown.filter (·.named)).map fun x => (x.column.name, x.term)
  let condition ← optional? s.condition (scope.resolve? named)
  let order ← s.order.mapM (·.resolve? scope shown named)
  let limit ← optional? s.limit (·.fallback.map .literal)
  let offset ← optional? s.offset (·.fallback.map .literal)
  return ⟨.select source condition order limit offset (shown.map (·.term)), shown.map (·.column)⟩

def rename? (names : Option (List String)) (columns : List Column) : Option (List Column) :=
  match names with
  | none => some columns
  | some names =>
    if names.length = columns.length then
      some (names.zipWith (fun n c => ⟨n, c.affinity⟩) columns)
    else none

/-- The relation of a name. A common table is built from those before it, so they stand in reverse
order here, and none is built from itself. -/
def table? : List CommonTable → String → Option Planned
  | [], name => (Relation.ofName? name).map fun r => ⟨.scan r, r.columns⟩
  | t :: earlier, name =>
    if t.name = name then do
      if t.selection.source.any (·.relation = t.name) then failure
      let p ← t.selection.plan? (table? earlier)
      return ⟨p.plan, ← rename? t.columns p.columns⟩
    else table? earlier name

def Relation.scope (r : Relation) : Scope := ⟨some r.name, r.columns⟩

/-- Returned columns are not named by their relation as a whole. -/
def Output.returned? (relation : Relation) : Output → Option (List Term)
  | .all (some _) => none
  | o => (o.resolve? relation.scope).map fun shown => shown.map (·.term)

def returning? (relation : Relation) : Option (List Output) → Option (Option (List Term))
  | none => some none
  | some outputs => do return some (← outputs.mapM (·.returned? relation)).flatten

/-- Where a row has the values of the columns. Of several places the first one counts, and the last
one for the number; a column that is not named has none. -/
def places? (relation : Relation) (names : Option (List String)) : Option (List (Option Nat)) :=
  match names with
  | none => some ((List.range relation.columns.length).map some)
  | some names =>
    if names.all fun n => relation.columns.any (·.name = n) then
      some (relation.columns.mapIdx fun i c =>
        let found := (names.zipIdx.filter (·.1 = c.name)).map (·.2)
        if i = 0 then found.getLast? else found.head?)
    else none

def Supply.plan? (table? : String → Option Planned) (width : Nat) : Supply → Option Plan
  | .values rows => do
    let rows ← rows.mapM fun row => row.mapM (·.resolve? (Scope.resolve? ⟨none, []⟩ []))
    if rows.all (·.length = width) then return .values rows else failure
  | .select s => do
    let p ← s.plan? table?
    if p.columns.length = width then return p.plan else failure

/-- Of several values for a column the last one counts. -/
def assigned? (relation : Relation) (assignments : List (String × Expr Name)) :
    Option (List (Option Term)) := do
  let terms ← assignments.mapM fun (n, e) => do
    return (n, ← e.resolve? (relation.scope.resolve? []))
  if terms.all fun (n, _) => relation.columns.any (·.name = n) then
    return relation.columns.map fun c => (terms.reverse.find? (·.1 = c.name)).map (·.2)
  else failure

def Verb.directive? (table? : String → Option Planned) : Verb → Option Directive
  | .select selection => (selection.plan? table?).map fun p => .rows p.plan
  | .insert resolution name columns supply returning => do
    let relation ← Relation.ofName? name
    let width := (columns.map (·.length)).getD relation.columns.length
    return .insert resolution relation (← places? relation columns) (← supply.plan? table? width)
      (← returning? relation returning)
  | .update resolution name assignments condition returning => do
    let relation ← Relation.ofName? name
    return .update resolution relation (← assigned? relation assignments)
      (← optional? condition (relation.scope.resolve? [])) (← returning? relation returning)
  | .delete name condition returning => do
    let relation ← Relation.ofName? name
    return .delete relation (← optional? condition (relation.scope.resolve? []))
      (← returning? relation returning)

def Statement.directive? (s : Statement) : Option Directive :=
  s.verb.directive? (table? s.tables.reverse)

def integer? (v : Value) : Option Int :=
  match v.toNumber.integral with
  | .int n => some n
  | _ => none

/-- The rows within a limit. A negative limit is none, and a negative offset skips nothing. -/
def window? (args : List Value) (limit offset : Option Term) (rows : List Row) :
    Option (List Row) :=
  match limit with
  | none => some rows
  | some limit => do
    let limit ← integer? (limit.value args [])
    if limit = 0 then return []
    let skipped ← match offset with
      | none => some 0
      | some offset => integer? (offset.value args [])
    let rows := rows.drop skipped.toNat
    return if limit < 0 then rows else rows.take limit.toNat

def mayPrecede : List (Value × Value × Bool) → Bool
  | [] => true
  | (a, b, descending) :: keys =>
    match if descending then b.sortOrder a else a.sortOrder b with
    | .lt => true
    | .gt => false
    | .eq => mayPrecede keys

def sorted (args : List Value) (order : List (Term × Bool)) (rows : List Row) : List Row :=
  Sort.sort (fun r s => mayPrecede (order.map fun (t, d) => (t.value args r, t.value args s, d)))
    rows

/-- The rows of a plan over the contents of the relations; `none` when a limit is no integer. -/
def Plan.rows? (contents : Relation → List Row) (args : List Value) : Plan → Option (List Row)
  | .scan r => some (contents r)
  | .values rows => some (rows.map fun row => row.map (·.value args []))
  | .select source condition order limit offset outputs => do
    let rows ← source.rows? contents args
    let rows := rows.filter fun r => condition.all (·.selects args r)
    let rows ← window? args limit offset (sorted args order rows)
    return rows.map fun r => outputs.map (·.value args r)

end RecordLedger.Query
