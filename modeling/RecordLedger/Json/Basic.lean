import RecordLedger.Decimal.Binary64

/-!
JSON values. Integers and floating-point numbers are different values, and an object lists its
members by key in the order of code points, each key once.
-/

namespace RecordLedger

inductive Json
  | null
  | bool (b : Bool)
  | int (n : Int)
  | float (x : Decimal.Binary64)
  | string (s : String)
  | array (elements : List Json)
  | object (members : List (String × Json))
deriving Inhabited

namespace Json

abbrev Members := List (String × Json)

/-- Sets the member `key`: a key that is present gets the new value, a new one takes its place in
the order. -/
def Members.set (key : String) (value : Json) : Members → Members
  | [] => [(key, value)]
  | (k, v) :: rest =>
    if key < k then (key, value) :: (k, v) :: rest
    else if key = k then (key, value) :: rest
    else (k, v) :: Members.set key value rest

/-- Members as written, in any order: of a repeated key the last value counts. -/
def Members.ofList (written : List (String × Json)) : Members :=
  written.foldl (fun ms (k, v) => ms.set k v) []

def ofMembers (written : List (String × Json)) : Json := .object (Members.ofList written)

def get? (key : String) : Json → Option Json
  | .object members => (members.find? (·.1 = key)).map (·.2)
  | _ => none

def string? : Json → Option String
  | .string s => some s
  | _ => none

def ofOption (f : α → Json) : Option α → Json
  | some a => f a
  | none => .null

def kind : Json → String
  | .null => "null"
  | .bool _ => "a boolean"
  | .int _ | .float _ => "a number"
  | .string _ => "a string"
  | .array _ => "an array"
  | .object _ => "an object"

end Json
end RecordLedger
