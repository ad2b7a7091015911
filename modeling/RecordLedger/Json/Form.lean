import RecordLedger.Json.Token

/-!
The written form of JSON text: the tree of its tokens, with members in the order written, repeated
keys included. Reading a form checks the grammar alone; what a form stands for is decided later.
-/

namespace RecordLedger.Json

inductive Form
  | null
  | bool (b : Bool)
  | number (n : Numeral)
  | string (pieces : List Piece)
  | array (elements : List Form)
  | object (members : List (List Piece × Form))
deriving Inhabited

namespace Form

mutual

/-- Reads one form from the front of the tokens, in at most `fuel` nested steps. -/
def readValue : Nat → List Token → Option (Form × List Token)
  | 0, _ => none
  | fuel + 1, tokens =>
    match tokens with
    | .null :: rest => some (.null, rest)
    | .bool b :: rest => some (.bool b, rest)
    | .number n :: rest => some (.number n, rest)
    | .string pieces :: rest => some (.string pieces, rest)
    | .beginArray :: .endArray :: rest => some (.array [], rest)
    | .beginArray :: rest =>
      (readElements fuel rest).map fun (elements, rest) => (.array elements, rest)
    | .beginObject :: .endObject :: rest => some (.object [], rest)
    | .beginObject :: rest =>
      (readMembers fuel rest).map fun (members, rest) => (.object members, rest)
    | _ => none

def readElements : Nat → List Token → Option (List Form × List Token)
  | 0, _ => none
  | fuel + 1, tokens =>
    match readValue fuel tokens with
    | some (x, .endArray :: rest) => some ([x], rest)
    | some (x, .comma :: rest) => (readElements fuel rest).map fun (xs, rest) => (x :: xs, rest)
    | _ => none

def readMembers : Nat → List Token → Option (List (List Piece × Form) × List Token)
  | 0, _ => none
  | fuel + 1, tokens =>
    match tokens with
    | .string key :: .colon :: tokens =>
      match readValue fuel tokens with
      | some (x, .endObject :: rest) => some ([(key, x)], rest)
      | some (x, .comma :: rest) =>
        (readMembers fuel rest).map fun (members, rest) => ((key, x) :: members, rest)
      | _ => none
    | _ => none

end

def ofText? (cs : List Char) : Option Form :=
  match Token.lex cs with
  | none => none
  | some tokens =>
    match readValue (2 * tokens.length + 1) tokens with
    | some (form, []) => some form
    | _ => none

end Form
end RecordLedger.Json
