import RecordLedger.Query.Shape
import RecordLedger.Store.Error
import RecordLedger.Version

/-!
What can go wrong in a ledger. Something missing is an expected outcome; everything else is a fault
of the caller, of a stored payload or of the store.
-/

namespace RecordLedger.Ledger

inductive Missing
  | record (tag : Tag) (id : RecordId)
  /-- A version of a record with exactly this timestamp. -/
  | versionAt (tag : Tag) (id : RecordId) (at_ : Instant)
  /-- The record that a page should start behind. -/
  | anchor (tag : Tag) (id : RecordId)
  /-- The first row of a statement. -/
  | row
deriving DecidableEq

def Missing.text : Missing → String
  | .record tag id => tag.text ++ " " ++ id.text
  | .versionAt tag id at_ =>
    tag.text ++ " " ++ id.text ++ " has no version at " ++ at_.text
  | .anchor tag id => "no current " ++ tag.text ++ " " ++ id.text ++ " to page from"
  | .row => "query returned no rows"

inductive Error
  | missing (what : Missing)
  | shape (violation : Query.Violation)
  /-- A payload that is no value of the wanted kind. -/
  | undecodable (tag : Tag) (id : RecordId) (sequence : Nat)
  /-- A value that has no payload. -/
  | unencodable (reason : String)
  /-- An id keeps the tag of its first version. -/
  | otherTag (id : RecordId) (first given : Tag)
  | emptyPage
  | store (e : Store.Error)
deriving DecidableEq

namespace Error

def isNotFound : Error → Bool
  | .missing _ => true
  | _ => false

def payloadText (tag : Tag) (id : RecordId) (sequence : Nat) : String :=
  tag.text ++ " " ++ id.text ++ s!" (sequence {sequence})"

def detail : Error → String
  | .missing what => what.text
  | .shape violation => violation.message
  | .undecodable tag id sequence => payloadText tag id sequence
  | .unencodable reason => reason
  | .otherTag id first given => id.text ++ " is a " ++ first.text ++ ", not a " ++ given.text
  | .emptyPage => "page size must be positive"
  | .store e => e.message

def message (e : Error) : String :=
  match e with
  | .missing _ => "not found: " ++ e.detail
  | .shape _ => "invalid query shape: " ++ e.detail
  | .undecodable .. => "decode error: " ++ e.detail
  | .unencodable _ => "encode error: " ++ e.detail
  | .otherTag .. | .emptyPage => "invalid argument: " ++ e.detail
  | .store _ => "storage error: " ++ e.detail

def describe (e : Error) : String :=
  match e with
  | .missing _ => "NotFound(" ++ Text.quoted e.detail ++ ")"
  | .shape .empty => "InvalidQueryShape(Empty)"
  | .shape .notARead => "InvalidQueryShape(NotARead)"
  | .shape .projection => "InvalidQueryShape(Projection)"
  | .shape .relation => "InvalidQueryShape(Relation)"
  | .undecodable .. => "Decode(" ++ Text.quoted e.detail ++ ")"
  | .unencodable _ => "Encode(" ++ Text.quoted e.detail ++ ")"
  | .otherTag .. | .emptyPage => "InvalidArgument(" ++ Text.quoted e.detail ++ ")"
  | .store e => "Storage(" ++ e.describe ++ ")"

end Error
end RecordLedger.Ledger
