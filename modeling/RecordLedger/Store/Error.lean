import RecordLedger.Text.Numeral
import RecordLedger.Text.Quoted

/-!
What can go wrong inside a store.
-/

namespace RecordLedger.Store

inductive Error
  /-- The engine refused a statement: its text, a constraint or the end of the sequence numbers. -/
  | statement
  /-- A statement got more or fewer arguments than it has parameters. -/
  | parameterCount
  /-- A column of a row does not have the type that is read from it. -/
  | columnType
  /-- A row has too few columns. -/
  | columnCount
  | io (reason : String)
  /-- A row holds a text that does not spell an id or a tag. -/
  | corruptRow (sequence : Int) (reason : String)
  | invalidArgument (reason : String)
  | configuration (reason : String)
  | lockPoisoned (reason : String)
deriving DecidableEq, Repr

def Error.message : Error → String
  | .statement => "database error: statement refused"
  | .parameterCount => "database error: wrong number of parameters"
  | .columnType => "database error: wrong column type"
  | .columnCount => "database error: too few columns"
  | .io reason => "I/O error: " ++ reason
  | .corruptRow sequence reason =>
    "corrupt row at sequence " ++ String.ofList (Text.Numeral.ofInt sequence) ++ ": " ++ reason
  | .invalidArgument reason => "invalid argument: " ++ reason
  | .configuration reason => "configuration error: " ++ reason
  | .lockPoisoned reason => "store lock poisoned: " ++ reason

def Error.describe : Error → String
  | .statement => "Database(Statement)"
  | .parameterCount => "Database(ParameterCount)"
  | .columnType => "Database(ColumnType)"
  | .columnCount => "Database(ColumnCount)"
  | .io reason => "Io(Custom \x7b kind: Other, error: " ++ Text.quoted reason ++ " \x7d)"
  | .corruptRow sequence reason =>
    "CorruptRow \x7b sequence: " ++ String.ofList (Text.Numeral.ofInt sequence) ++ ", reason: " ++
      Text.quoted reason ++ " \x7d"
  | .invalidArgument reason => "InvalidArgument(" ++ Text.quoted reason ++ ")"
  | .configuration reason => "Config(" ++ Text.quoted reason ++ ")"
  | .lockPoisoned reason => "LockPoisoned(" ++ Text.quoted reason ++ ")"

end RecordLedger.Store
