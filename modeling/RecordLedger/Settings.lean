import RecordLedger.Text.Numeral
import RecordLedger.Toml.Reader

/-!
Settings: where the store is kept and how many records a page shows. They are read from TOML, with a
default for whatever is not said there, and written so that they read back.
-/

namespace RecordLedger

/-- How a store is opened. Without a path it is private and gone at the end. -/
structure StoreSettings where
  path : Option String
  /-- Whether writes go to a log first. -/
  wal : Bool
  /-- How long a statement waits for a locked store, in milliseconds. -/
  busyTimeout : Nat
deriving DecidableEq, Repr

structure Settings where
  pageSize : Nat
  store : StoreSettings
deriving DecidableEq, Repr

/-- The values of named fields, from a table by name or from an array by position. -/
def Toml.fields? (names : List String) : Toml → Option (List (Option Toml))
  | .table _ ms => some (names.map fun name => Toml.Members.find? ms name)
  | .array elements => some (names.mapIdx fun i _ => elements[i]?)
  | .tables elements => some (names.mapIdx fun i _ => elements[i]?)
  | _ => none

namespace Toml

def fieldOr (default : α) (read : Toml → Option α) : Option Toml → Option α
  | none => some default
  | some v => read v

def string? : Toml → Option String
  | .string s => some s
  | _ => none

def bool? : Toml → Option Bool
  | .bool b => some b
  | _ => none

def nat? : Toml → Option Nat
  | .int n => if 0 ≤ n then some n.toNat else none
  | _ => none

end Toml

namespace StoreSettings

def default : StoreSettings := ⟨none, true, 5000⟩

def ofToml? (t : Toml) : Option StoreSettings := do
  match ← t.fields? ["path", "wal", "busy_timeout_ms"] with
  | [path, wal, busyTimeout] =>
    return {
      path := ← Toml.fieldOr default.path (fun t => t.string?.map some) path
      wal := ← Toml.fieldOr default.wal Toml.bool? wal
      busyTimeout := ← Toml.fieldOr default.busyTimeout Toml.nat? busyTimeout }
  | _ => none

def ofText? (s : String) : Option StoreSettings := (Toml.ofText? s).bind ofToml?

def withPath (s : StoreSettings) (path : Option String) : StoreSettings :=
  { s with path := path.orElse fun _ => s.path }

end StoreSettings

namespace Settings

/-- The store that is used where no settings are given. -/
def defaultPath : String := "vrl.db"

def default : Settings := ⟨20, { StoreSettings.default with path := some defaultPath }⟩

def ofToml? (t : Toml) : Option Settings := do
  match ← t.fields? ["default_page_size", "store"] with
  | [pageSize, store] =>
    return {
      pageSize := ← Toml.fieldOr default.pageSize Toml.nat? pageSize
      store := ← Toml.fieldOr default.store StoreSettings.ofToml? store }
  | _ => none

inductive Fault
  | malformed
  | emptyPage
deriving DecidableEq, Repr

def Fault.message (file : String) : Fault → String
  | .malformed => "parsing " ++ file
  | .emptyPage => file ++ ": default_page_size must be positive"

def read (s : String) : Except Fault Settings :=
  match (Toml.ofText? s).bind ofToml? with
  | none => .error .malformed
  | some settings => if settings.pageSize = 0 then .error .emptyPage else .ok settings

def line (key : String) (value : List Char) : List Char :=
  key.toList ++ " = ".toList ++ value ++ ['\n']

def boolText (b : Bool) : List Char := (if b then "true" else "false").toList

def text (s : Settings) : String :=
  String.ofList <|
    line "default_page_size" (Text.Numeral.ofNat s.pageSize) ++ "\n[store]\n".toList ++
      (match s.store.path with
      | some path => line "path" (Toml.Quoted.write path.toList)
      | none => []) ++
      line "wal" (boolText s.store.wal) ++
      line "busy_timeout_ms" (Text.Numeral.ofNat s.store.busyTimeout)

end Settings
end RecordLedger
