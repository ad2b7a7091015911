import RecordLedger.Cursor
import RecordLedger.Instant
import RecordLedger.Tag

/-!
Texts that do not spell the value they should, as one kind of error.
-/

namespace RecordLedger

inductive Malformed
  | id (text : String) (fault : RecordId.Fault)
  | tag (text : String) (fault : Tag.Fault)
  | instant (text : String) (fault : Instant.Fault)
  | cursor (fault : Cursor.Fault)
deriving DecidableEq, Repr

namespace Malformed

def message : Malformed → String
  | .id text fault => "invalid record id: " ++ Text.quoted text ++ ": " ++ fault.message
  | .tag text fault => "invalid data type " ++ Text.quoted text ++ ": " ++ fault.message
  | .instant text fault => "invalid timestamp: " ++ Text.quoted text ++ ": " ++ fault.message
  | .cursor fault => "invalid cursor: " ++ fault.message

end Malformed

def RecordId.parse (s : String) : Except Malformed RecordId :=
  (RecordId.read s).mapError (.id s)

def Tag.parse (s : String) : Except Malformed Tag := (Tag.read s).mapError (.tag s)

/-- The message of a refused text shows it without the blanks at its ends. -/
def Instant.parse (s : String) : Except Malformed Instant :=
  (Instant.read s).mapError (.instant (String.ofList (Text.trim s.toList)))

def Cursor.parse (s : String) : Except Malformed Cursor := (Cursor.read s).mapError .cursor

end RecordLedger
