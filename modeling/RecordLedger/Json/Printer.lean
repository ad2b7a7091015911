import RecordLedger.Json.Form
import RecordLedger.Json.Number
import RecordLedger.Json.Strings

/-!
Writing JSON. Every value has one canonical form; the compact text puts its tokens side by side, the
indented text gives each element and member a line of its own.
-/

namespace RecordLedger.Json

mutual

def form : Json → Form
  | .null => .null
  | .bool b => .bool b
  | .int n => .number (.ofInt n)
  | .float x => .number (.ofFloat x)
  | .string s => .string (Piece.ofString s)
  | .array elements => .array (forms elements)
  | .object members => .object (memberForms members)
termination_by structural v => v

def forms : List Json → List Form
  | [] => []
  | x :: xs => form x :: forms xs
termination_by structural vs => vs

def memberForms : List (String × Json) → List (List Piece × Form)
  | [] => []
  | (key, x) :: rest => (Piece.ofString key, form x) :: memberForms rest
termination_by structural ms => ms

end

def Token.spelling : Token → List Char
  | .null => "null".toList
  | .bool true => "true".toList
  | .bool false => "false".toList
  | .number n => n.text
  | .string pieces => '"' :: pieces.flatMap Piece.spelling ++ ['"']
  | .beginArray => ['[']
  | .endArray => [']']
  | .beginObject => ['\x7b']
  | .endObject => ['\x7d']
  | .comma => [',']
  | .colon => [':']

namespace Form

mutual

def tokens : Form → List Token
  | .null => [.null]
  | .bool b => [.bool b]
  | .number n => [.number n]
  | .string pieces => [.string pieces]
  | .array elements => .beginArray :: elementTokens elements
  | .object members => .beginObject :: memberTokens members
termination_by structural f => f

def elementTokens : List Form → List Token
  | [] => [.endArray]
  | x :: xs =>
    tokens x ++
      match xs with
      | [] => [.endArray]
      | _ :: _ => .comma :: elementTokens xs
termination_by structural fs => fs

def memberTokens : List (List Piece × Form) → List Token
  | [] => [.endObject]
  | (key, x) :: rest =>
    .string key :: .colon :: tokens x ++
      match rest with
      | [] => [.endObject]
      | _ :: _ => .comma :: memberTokens rest
termination_by structural ms => ms

end

def compact (f : Form) : List Char := f.tokens.flatMap Token.spelling

def newLine (depth : Nat) : List Char := '\n' :: List.replicate (2 * depth) ' '

mutual

/-- The indented text of a form at a depth of nesting. -/
def pretty (depth : Nat) : Form → List Char
  | .array (x :: xs) => '[' :: newLine (depth + 1) ++ prettyElements (depth + 1) (x :: xs) ++
      newLine depth ++ [']']
  | .object (m :: ms) => '\x7b' :: newLine (depth + 1) ++ prettyMembers (depth + 1) (m :: ms) ++
      newLine depth ++ ['\x7d']
  | .null => "null".toList
  | .bool b => (Token.bool b).spelling
  | .number n => n.text
  | .string pieces => (Token.string pieces).spelling
  | .array [] => ['[', ']']
  | .object [] => ['\x7b', '\x7d']
termination_by structural f => f

def prettyElements (depth : Nat) : List Form → List Char
  | [] => []
  | x :: xs =>
    pretty depth x ++
      match xs with
      | [] => []
      | _ :: _ => ',' :: newLine depth ++ prettyElements depth xs
termination_by structural fs => fs

def prettyMembers (depth : Nat) : List (List Piece × Form) → List Char
  | [] => []
  | (key, x) :: rest =>
    (Token.string key).spelling ++ [':', ' '] ++ pretty depth x ++
      match rest with
      | [] => []
      | _ :: _ => ',' :: newLine depth ++ prettyMembers depth rest
termination_by structural ms => ms

end
end Form

def compact (v : Json) : String := String.ofList v.form.compact

/-- The text of a value with two blanks of indentation for each level. -/
def pretty (v : Json) : String := String.ofList (v.form.pretty 0)

end RecordLedger.Json
