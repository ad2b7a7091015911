import RecordLedger.RecordId
import RecordLedger.Text.Occurrence
import RecordLedger.Text.Quoted

/-!
Page cursors: opaque tokens that name a record. A token is the hexadecimal text of the UTF-8 octets
of `cursor:` followed by the id.
-/

namespace RecordLedger

structure Cursor where
  id : RecordId
deriving DecidableEq

namespace Cursor

def mark : String := "cursor:"

def token (c : Cursor) : String :=
  String.ofList (Text.Hex.encode (mark ++ c.id.text).toUTF8.toList)

inductive Fault
  | hex (token : String) (fault : Text.Hex.Fault)
  | encoding (token : String)
  | mark (token : String)
  | id (text : String) (fault : RecordId.Fault)
deriving DecidableEq, Repr

def hexMessage : Text.Hex.Fault → String
  | .odd => "Odd number of digits"
  | .digit octet position =>
    "Invalid character " ++ Text.quotedSingle (Char.ofNat octet.toNat) ++
      s!" at position {position}"

def Fault.message : Fault → String
  | .hex token fault => Text.quoted token ++ ": " ++ hexMessage fault
  | .encoding token => Text.quoted token ++ ": not UTF-8"
  | .mark token => Text.quoted token ++ ": missing prefix"
  | .id text fault => "invalid record id: " ++ Text.quoted text ++ ": " ++ fault.message

def read (s : String) : Except Fault Cursor :=
  let cs := Text.trim s.toList
  match Text.Hex.decode? cs with
  | none => .error (.hex s (Text.Hex.fault (String.ofList cs).toUTF8.toList))
  | some octets =>
    match String.fromUTF8? ⟨octets.toArray⟩ with
    | none => .error (.encoding s)
    | some text =>
      match Text.after? mark.toList text.toList with
      | none => .error (.mark s)
      | some idText =>
        match RecordId.read (String.ofList idText) with
        | .ok id => .ok ⟨id⟩
        | .error fault => .error (.id (String.ofList idText) fault)

def describe (c : Cursor) : String := "Cursor(" ++ c.id.text ++ ")"

end Cursor
end RecordLedger
