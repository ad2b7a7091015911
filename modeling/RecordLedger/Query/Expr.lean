import RecordLedger.Query.Value

/-!
Expressions of statements, over any kind of column: by name as written, by place once resolved.
Conditions know three answers, and a comparison with null has the unknown one.
-/

namespace RecordLedger.Query

inductive Comparison
  | eq
  | ne
  | lt
  | le
  | gt
  | ge
deriving DecidableEq, Repr

def Comparison.holds : Comparison → Ordering → Bool
  | .eq, o => o == .eq
  | .ne, o => o != .eq
  | .lt, o => o == .lt
  | .le, o => o != .gt
  | .gt, o => o == .gt
  | .ge, o => o != .lt

inductive Expr (κ : Type)
  | literal (v : Value)
  /-- The argument with this number, counted from one. -/
  | parameter (n : Nat)
  | column (c : κ)
  /-- The value of an expression without its affinity. -/
  | plain (e : Expr κ)
  | negate (e : Expr κ)
  | not (e : Expr κ)
  | compare (op : Comparison) (a b : Expr κ)
  /-- Equality that takes null as a value. -/
  | same (a b : Expr κ)
  | both (a b : Expr κ)
  | either (a b : Expr κ)
  | append (a b : Expr κ)
deriving DecidableEq, Repr

structure Slot where
  index : Nat
  affinity : Affinity
deriving DecidableEq, Repr

namespace Expr

def among (e : Expr κ) (list : List (Expr κ)) : Expr κ :=
  match list with
  | [] => .literal (.int 0)
  | first :: rest =>
    rest.foldl (fun found x => .either found (.compare .eq e (.plain x)))
      (.compare .eq e (.plain first))

def between (e low high : Expr κ) : Expr κ :=
  .both (.compare .ge e low) (.compare .le e high)

/-- Replaces every column; fails where a column stands for nothing. -/
def resolve? (f : κ → Option (Expr ι)) : Expr κ → Option (Expr ι)
  | .literal v => some (.literal v)
  | .parameter n => some (.parameter n)
  | .column c => f c
  | .plain e => do return .plain (← e.resolve? f)
  | .negate e => do return .negate (← e.resolve? f)
  | .not e => do return .not (← e.resolve? f)
  | .compare op a b => do return .compare op (← a.resolve? f) (← b.resolve? f)
  | .same a b => do return .same (← a.resolve? f) (← b.resolve? f)
  | .both a b => do return .both (← a.resolve? f) (← b.resolve? f)
  | .either a b => do return .either (← a.resolve? f) (← b.resolve? f)
  | .append a b => do return .append (← a.resolve? f) (← b.resolve? f)

def affinity : Expr Slot → Affinity
  | .column c => c.affinity
  | _ => .none

/-- Unknown unless one side decides. -/
def both? : Option Bool → Option Bool → Option Bool
  | some false, _ | _, some false => some false
  | some true, some true => some true
  | _, _ => none

def either? : Option Bool → Option Bool → Option Bool
  | some true, _ | _, some true => some true
  | some false, some false => some false
  | _, _ => none

/-- The value of an expression for a row; an argument that is missing is null. -/
def value (args row : List Value) : Expr Slot → Value
  | .literal v => v
  | .parameter n => (args[n - 1]?).getD .null
  | .column c => (row[c.index]?).getD .null
  | .plain e => e.value args row
  | .negate e => (e.value args row).negate
  | .not e => .ofBool? ((e.value args row).truth?.map Bool.not)
  | .compare op a b =>
    let (x, y) := Value.aligned (a.value args row) (b.value args row) a.affinity b.affinity
    .ofBool? ((x.order? y).map op.holds)
  | .same a b =>
    let (x, y) := Value.aligned (a.value args row) (b.value args row) a.affinity b.affinity
    .ofBool? (some (x.sortOrder y == .eq))
  | .both a b => .ofBool? (both? (a.value args row).truth? (b.value args row).truth?)
  | .either a b => .ofBool? (either? (a.value args row).truth? (b.value args row).truth?)
  | .append a b => (a.value args row).append (b.value args row)

def selects (args row : List Value) (e : Expr Slot) : Bool :=
  (e.value args row).truth? == some true

end Expr
end RecordLedger.Query
