import RecordLedger.Text.Blank
import RecordLedger.Text.Occurrence

/-!
The shape of ad hoc statements. A statement is judged by its text alone, without regard to letter
case and layout: it has to begin like a read, name the columns of a version in their order and name
the history as what it reads.
-/

namespace RecordLedger.Query

/-- The columns of a version, in the order in which rows are read. -/
def projection : String := "sequence, id, data_type, payload, timestamp"

def historyName : String := "record"

inductive Violation
  | empty
  | notARead
  | projection
  | relation
deriving DecidableEq, Repr

def Violation.message : Violation → String
  | .empty => "statement is empty"
  | .notARead => "statement must begin with SELECT or WITH"
  | .projection => "statement must project `" ++ Query.projection ++ "` in that order"
  | .relation => "statement must read FROM `" ++ historyName ++ "`"

def closeBeforeCommas : List Char → List Char
  | [] => []
  | ' ' :: ',' :: cs => ',' :: closeBeforeCommas cs
  | c :: cs => c :: closeBeforeCommas cs

def closeAfterCommas : List Char → List Char
  | [] => []
  | ',' :: ' ' :: cs => ',' :: closeAfterCommas cs
  | c :: cs => c :: closeAfterCommas cs

def joined : List (List Char) → List Char
  | [] => []
  | [w] => w
  | w :: v :: ws => w ++ ' ' :: joined (v :: ws)

/-- The text in lower case, with one blank for each gap and none around commas. -/
def normalize (text : List Char) : List Char :=
  closeAfterCommas (closeBeforeCommas ((joined (Text.words text)).map Char.toLower))

def isWordChar (c : Char) : Bool := c.isAlphanum || c == '_'

def endsWord : List Char → Bool
  | [] => true
  | c :: _ => !isWordChar c

def startsWith (word : String) (text : List Char) : Bool :=
  (Text.after? word.toList text).any endsWord

def projects (text : List Char) : Bool :=
  !(Text.followers (normalize projection.toList) text).isEmpty

def readsHistory (text : List Char) : Bool :=
  (Text.followers ("from " ++ historyName).toList text).any endsWord

def violation? (sql : String) : Option Violation :=
  let text := normalize sql.toList
  if text.isEmpty then some .empty
  else if !startsWith "select" text && !startsWith "with" text then some .notARead
  else if !projects text then some .projection
  else if !readsHistory text then some .relation
  else none

end RecordLedger.Query
