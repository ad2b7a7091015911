import RecordLedger.Text.Numeral

/-!
TOML documents as trees of tables. A table remembers how it came to be, because that decides what
may still be put into it: each key is defined once and each table is opened once.
-/

namespace RecordLedger

/-- How a table came to be. -/
inductive Toml.Origin
  /-- Opened by a header of its own, or the document itself. -/
  | header
  /-- Named by the header of a table inside it. -/
  | implied
  /-- Made by a key with dots. -/
  | dotted
  /-- Written between braces, and closed since. -/
  | inline
deriving DecidableEq, Repr

/-- The values of TOML. Floats and dates are read, but nothing asks what they are. -/
inductive Toml
  | string (s : String)
  | int (n : Int)
  | bool (b : Bool)
  | float
  | date
  | array (elements : List Toml)
  /-- The tables of a header in double brackets. -/
  | tables (elements : List Toml)
  | table (origin : Toml.Origin) (members : List (String × Toml))
deriving Inhabited

namespace Toml

abbrev Members := List (String × Toml)

def Members.find? (ms : Members) (key : String) : Option Toml :=
  (List.find? (·.1 = key) ms).map (·.2)

def Members.put (key : String) (value : Toml) : Members → Members
  | [] => [(key, value)]
  | (k, v) :: rest => if k = key then (key, value) :: rest else (k, v) :: Members.put key value rest

def member? (key : String) : Toml → Option Toml
  | .table _ ms => Members.find? ms key
  | _ => none

/-- Changes the table at the end of a path, counted from another table. Tables on the way that do
not exist are made by the way, with the given origin; a key with dots does not enter a table that a
header opened, and an array of tables stands for its last one. -/
def change (made : Origin) (f : Origin → Members → Option Toml) :
    List String → Origin → Members → Option Toml
  | [], origin, ms => f origin ms
  | key :: path, origin, ms => do
    let inner ← match Members.find? ms key with
      | none => change made f path made []
      | some (.table .inline _) => none
      | some (.table inner ms) =>
        if made = .dotted && inner = .header then none else change made f path inner ms
      | some (.tables elements) =>
        match elements.getLast? with
        | some (.table inner ms) =>
          (change made f path inner ms).map fun last => .tables (elements.dropLast ++ [last])
        | _ => none
      | some _ => none
    return .table origin (Members.put key inner ms)

def define (key : String) (value : Toml) (origin : Origin) (ms : Members) : Option Toml :=
  match Members.find? ms key with
  | some _ => none
  | none => some (.table origin (ms ++ [(key, value)]))

def assign (path : List String) (key : String) (value : Toml) (origin : Origin) (ms : Members) :
    Option Toml :=
  change .dotted
    (fun inner ms => if path.isEmpty || inner = .dotted then define key value inner ms else none)
    path origin ms

/-- Opens a table. One that was only implied may be opened later, once. -/
def openTable (key : String) (origin : Origin) (ms : Members) : Option Toml :=
  match Members.find? ms key with
  | none => some (.table origin (ms ++ [(key, .table .header [])]))
  | some (.table .implied inner) => some (.table origin (Members.put key (.table .header inner) ms))
  | some _ => none

/-- Opens one more table of an array of tables. -/
def openElement (key : String) (origin : Origin) (ms : Members) : Option Toml :=
  match Members.find? ms key with
  | none => some (.table origin (ms ++ [(key, .tables [.table .header []])]))
  | some (.tables elements) =>
    some (.table origin (Members.put key (.tables (elements ++ [.table .header []])) ms))
  | some _ => none

/-- Does `f` in the table at the end of a path of headers. -/
def underHeaders (f : Origin → Members → Option Toml) (path : List String) : Toml → Option Toml
  | .table origin ms => change .implied f path origin ms
  | _ => none

end Toml
end RecordLedger
