import RecordLedger.Collection.Error
import RecordLedger.Ledger.Append
import RecordLedger.Ledger.Page

/-!
Collections: the records of one tag, as values of one kind. A collection shows what is current; a
deletion shows up in histories alone.
-/

namespace RecordLedger

class Entity (α : Type) extends Decodable α where
  /-- The tag of all values of the kind, if they share one. -/
  fixedTag : Option Tag
  id? : α → Option RecordId
  tagOf : α → Tag
  /-- The payload of a value, or the reason why it has none. -/
  encode : α → Except String String
  /-- Tells a value the tag that it was stored under. -/
  setTag : Tag → α → α

def Ledger.Draft.ofEntity [Entity α] (x : α) : Ledger.Draft :=
  ⟨Entity.id? x, Entity.tagOf x, Entity.encode x⟩

structure Collection (α : Type) where
  tag : Tag

namespace Collection

abbrev Action (σ : Type) := RecordLedger.Action Error σ

abbrev onLedger (a : Ledger.Action σ α) : Action σ α := a.wrap .ledger

def ofKind (α : Type) [Entity α] : Except Error (Collection α) :=
  match Entity.fixedTag α with
  | some tag => .ok ⟨tag⟩
  | none => .error .untagged

def describe (c : Collection α) : String :=
  "Collection \x7b data_type: " ++ c.tag.describe ++ ", .. \x7d"

/-- A page of values, each with the cursor that names it. -/
structure Edge (α : Type) where
  cursor : Cursor
  node : α

structure Connection (α : Type) where
  edges : List (Edge α)
  page : Ledger.PageInfo

def Connection.nodes (c : Connection α) : List α := c.edges.map (·.node)

/-- An entry of a record's history; a deletion has no value. -/
structure Entry (α : Type) where
  sequence : Nat
  timestamp : Instant
  value : Option α

def Entry.isDeleted (e : Entry α) : Bool := e.value.isNone

section
variable [Entity α]

def decode (b : Store.Backend σ) (v : Version) : Action σ α := do
  let x : α ← onLedger (Ledger.scan b v)
  return Entity.setTag v.tag x

def edge (b : Store.Backend σ) (v : Version) : Action σ (Edge α) := do
  return ⟨⟨v.id⟩, ← decode b v⟩

def entry (b : Store.Backend σ) (v : Version) : Action σ (Entry α) := do
  if v.isTombstone then return ⟨v.sequence, v.timestamp, none⟩
  else return ⟨v.sequence, v.timestamp, some (← decode b v)⟩

/-- At most `first` current values, newest first, behind a cursor if there is one. -/
def fetch (b : Store.Backend σ) (c : Collection α) (first : Nat) (before : Option Cursor) :
    Action σ (Connection α) := do
  let found ← onLedger (Ledger.fetch b c.tag first (before.map (·.id)))
  return ⟨← found.remaining.mapM (edge b), found.page⟩

def read (b : Store.Backend σ) (c : Collection α) (id : RecordId) : Action σ α := do
  let v ← onLedger (Ledger.read b id c.tag)
  if v.isTombstone then throw (.deleted c.tag id)
  decode b v

/-- Writes a value of the collection's tag and returns it as stored. -/
def write (b : Store.Backend σ) (fresh : RecordId) (c : Collection α) (x : α) : Action σ α := do
  let given := Entity.tagOf x
  if given ≠ c.tag then throw (.otherTag given c.tag)
  decode b (← onLedger (Ledger.write b fresh (.ofEntity x)))

def delete (b : Store.Backend σ) (c : Collection α) (id : RecordId) : Action σ Unit := do
  let _ ← onLedger (Ledger.delete b id c.tag)

def history (b : Store.Backend σ) (c : Collection α) (id : RecordId) :
    Action σ (List (Entry α)) := do
  let found ← onLedger (Ledger.history b id)
  (found.remaining.filter (·.tag = c.tag)).mapM (entry b)

/-- Appends the version with exactly a timestamp once more. -/
def restore (b : Store.Backend σ) (c : Collection α) (id : RecordId) (at_ : Instant) :
    Action σ (Entry α) := do
  entry b (← onLedger (Ledger.restore b id c.tag at_))

end
end Collection
end RecordLedger
