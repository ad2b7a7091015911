import RecordLedger.Json.Form
import RecordLedger.Json.Number
import RecordLedger.Json.Strings
import RecordLedger.Word

/-!
What a written form stands for. As a value, a form may nest up to a bound, and of a repeated key the
last member counts. As a record with named fields, only the fields asked for are looked at.
-/

namespace RecordLedger.Json

def maxDepth : Nat := 127

namespace Form

mutual

/-- The value of a form that nests at most `depth` levels. -/
def value? : Nat → Form → Option Json
  | _, .null => some .null
  | _, .bool b => some (.bool b)
  | _, .number n => n.json?
  | _, .string pieces => (Piece.string? pieces).map .string
  | 0, .array _ => none
  | depth + 1, .array elements => (values? depth elements).map .array
  | 0, .object _ => none
  | depth + 1, .object members => (memberValues? depth members).map Json.ofMembers
termination_by structural _ f => f

def values? : Nat → List Form → Option (List Json)
  | _, [] => some []
  | depth, x :: xs =>
    match value? depth x, values? depth xs with
    | some v, some vs => some (v :: vs)
    | _, _ => none
termination_by structural _ fs => fs

def memberValues? : Nat → List (List Piece × Form) → Option (List (String × Json))
  | _, [] => some []
  | depth, (key, x) :: rest =>
    match Piece.string? key, value? depth x, memberValues? depth rest with
    | some k, some v, some vs => some ((k, v) :: vs)
    | _, _, _ => none
termination_by structural _ ms => ms

end

def string? : Form → Option String
  | .string pieces => Piece.string? pieces
  | _ => none

def int64? : Form → Option Int
  | .number n => n.int?.filter Word.fitsSigned
  | _ => none

def nat64? : Form → Option Nat
  | .number n => (n.int?.filter Word.fitsUnsigned).map Int.toNat
  | _ => none

/-- The forms of the named fields of a record. An object may hold each of them at most once, next to
any other members; an array holds them by position, and may end early. -/
def fields? (names : List String) : Form → Option (List (Option Form))
  | .object members => do
    let keyed ← members.mapM fun (key, x) => (Piece.string? key).map (·, x)
    names.mapM fun name =>
      match keyed.filter (·.1 = name) with
      | [] => some none
      | [(_, x)] => some (some x)
      | _ => none
  | .array elements =>
    if elements.length ≤ names.length then
      some (elements.map some ++ List.replicate (names.length - elements.length) none)
    else none
  | _ => none

end Form

def ofText? (s : String) : Option Json := (Form.ofText? s.toList).bind (·.value? maxDepth)

end RecordLedger.Json
