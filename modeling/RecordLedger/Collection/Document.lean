import RecordLedger.Collection.Basic

/-!
Documents: JSON objects under a tag that is chosen when they are made. Only the body is stored.
-/

namespace RecordLedger

structure Document where
  node : Node
  tag : Tag
  body : Json.Members

namespace Document

/-- The tag of a document that no collection has given one. -/
def untagged : Tag := ⟨"document", by decide⟩

def new (tag : Tag) (body : Json.Members) : Document := ⟨.unstored, tag, body⟩

def ofValue (tag : Tag) : Json → Except Collection.Error Document
  | .object body => .ok (new tag body)
  | value => .error (.notAnObject value)

def ofText? (s : String) : Option Document :=
  match Json.ofText? s with
  | some (.object body) => some (new untagged body)
  | _ => none

/-- Points a document at a record, so that writing it adds a version there. -/
def withId (d : Document) (id : RecordId) : Document :=
  { d with node := { d.node with id := some id } }

def payload (d : Document) : String := (Json.object d.body).compact

def toJson (d : Document) : Json :=
  .ofMembers
    [("id", .ofOption (fun id => .string id.text) d.node.id),
      ("data_type", .string d.tag.text),
      ("sequence", .int d.node.sequence),
      ("created", .string d.node.created.text),
      ("modified", .string d.node.modified.text),
      ("body", .object d.body)]

instance : Entity Document where
  decode? := ofText?
  place node d := { d with node }
  fixedTag := none
  id? d := d.node.id
  tagOf d := d.tag
  encode d := .ok d.payload
  setTag tag d := { d with tag }

end Document
end RecordLedger
