import RecordLedger.Text.Quoted

/-!
Tags: the data types under which records are kept. A tag has 1 to 32 characters, each an ASCII
letter, a digit or one of `.`, `_`, `-` and `:`. Tags are ordered as texts.
-/

namespace RecordLedger
namespace Tag

def maxLength : Nat := 32

def isTagChar (c : Char) : Bool :=
  c.isAlphanum || c == '.' || c == '_' || c == '-' || c == ':'

inductive Fault
  | empty
  | tooLong
  | character (found : Char)
deriving DecidableEq, Repr

def Fault.message : Fault → String
  | .empty => "must not be empty"
  | .tooLong => s!"longer than {maxLength} bytes"
  | .character c => "unexpected character " ++ Text.quotedSingle c

def fault? (s : String) : Option Fault :=
  if s.isEmpty then some .empty
  else if maxLength < s.utf8ByteSize then some .tooLong
  else (s.toList.find? fun c => !isTagChar c).map .character

end Tag

structure Tag where
  text : String
  faultless : Tag.fault? text = none
deriving DecidableEq

namespace Tag

def read (s : String) : Except Fault Tag :=
  match h : fault? s with
  | none => .ok ⟨s, h⟩
  | some f => .error f

def le (a b : Tag) : Bool := decide (a.text ≤ b.text)

def describe (tag : Tag) : String := "DataType(" ++ tag.text ++ ")"

def length (tag : Tag) : Nat := tag.text.utf8ByteSize

end Tag
end RecordLedger
