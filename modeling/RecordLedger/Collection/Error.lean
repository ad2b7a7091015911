import RecordLedger.Ledger.Error

/-!
What can go wrong in a collection. A deleted record is as good as a missing one.
-/

namespace RecordLedger.Collection

inductive Error
  | deleted (tag : Tag) (id : RecordId)
  /-- A kind of value without a tag of its own needs one from the collection. -/
  | untagged
  /-- A value of another tag than the collection's. -/
  | otherTag (given own : Tag)
  | notAnObject (value : Json)
  | ledger (e : Ledger.Error)

namespace Error

def isNotFound : Error → Bool
  | .deleted .. => true
  | .ledger e => e.isNotFound
  | _ => false

def message : Error → String
  | .deleted tag id => "not found: " ++ tag.text ++ " " ++ id.text ++ " was deleted"
  | .untagged =>
    "invalid operation: entity has no fixed data type; use Collection::with_data_type"
  | .otherTag given own =>
    "invalid operation: cannot write " ++ given.text ++ " into a " ++ own.text ++ " collection"
  | .notAnObject value =>
    "invalid operation: document body must be a JSON object, got " ++ value.kind
  | .ledger e => "ledger error: " ++ e.message

end Error
end RecordLedger.Collection
