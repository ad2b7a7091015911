import RecordLedger.Command.Arguments
import RecordLedger.Malformed
import RecordLedger.Settings
import RecordLedger.Word

/-!
Invocations: what a command line asks for. The options that every command shares may stand on either
side of the command's name; those behind it win.
-/

namespace RecordLedger

inductive Command
  | init (force : Bool)
  | write (tag : Tag) (body : String) (id : Option RecordId)
  | read (tag : Tag) (id : RecordId)
  | history (id : RecordId)
  | delete (tag : Tag) (id : RecordId)
  | restore (tag : Tag) (id : RecordId) (at_ : Instant)
  | fetch (tag : Tag) (first : Option Nat) (before : Option Cursor)
  | query (sql : String) (args : List String)
  | reconcile (dryRun : Bool)

namespace Command

inductive Format
  | text
  | json
deriving DecidableEq, Repr

structure Invocation where
  command : Command
  format : Format
  /-- The store to use instead of the one in the settings. -/
  database : Option String
  /-- The file that holds the settings. -/
  settings : String

def Format.ofName? (s : String) : Option Format :=
  if s = "text" then some .text else if s = "json" then some .json else none

/-- A number of records, which fits 64 bits and may have a plus sign. -/
def count? (s : String) : Option Nat :=
  let digits := match s.toList with
    | '+' :: cs => cs
    | cs => cs
  (Text.Numeral.nat? digits).filter (· ≤ Word.maxUnsigned)

def tag? (s : String) : Option Tag := (Tag.parse s).toOption
def id? (s : String) : Option RecordId := (RecordId.parse s).toOption
def instant? (s : String) : Option Instant := (Instant.parse s).toOption
def cursor? (s : String) : Option Cursor := (Cursor.parse s).toOption

def anything (_ : String) : Option Usage := none

def checkPath (s : String) : Option Usage := if s.isEmpty then some .refusedValue else none

def checkFormat (s : String) : Option Usage :=
  if (Format.ofName? s).isNone then some .refusedValue else none

def checkBy (f : String → Option α) (s : String) : Option Usage :=
  if (f s).isNone then some .malformedValue else none

def option (name : String) (check : String → Option Usage) : Argument :=
  ⟨name, none, .valued false, false, check⟩

def flag (name : String) : Argument := ⟨name, none, .flag, false, anything⟩

def operand (name : String) (check : String → Option Usage) : Argument :=
  ⟨name, none, .valued false, true, check⟩

def help : Argument := ⟨"help", some 'h', .help, false, anything⟩
def version : Argument := ⟨"version", some 'V', .version, false, anything⟩

/-- The options that all levels share. -/
def shared : List Argument :=
  [⟨"verbose", some 'v', .flag, false, anything⟩, option "format" checkFormat,
    option "db" checkPath, option "config" checkPath, help]

def tagOperand : Argument := operand "data_type" (checkBy tag?)
def idOperand : Argument := operand "id" (checkBy id?)

/-- The options and the operands of a command by its name. -/
def argumentsOf : String → List Argument × List Argument
  | "init" => ([flag "force"], [])
  | "write" => ([option "id" (checkBy id?)], [tagOperand, operand "body" anything])
  | "read" => ([], [tagOperand, idOperand])
  | "history" => ([], [idOperand])
  | "delete" => ([], [tagOperand, idOperand])
  | "restore" =>
    ([{ option "at" (checkBy instant?) with required := true }], [tagOperand, idOperand])
  | "fetch" =>
    ([{ option "first" (checkBy count?) with short := some 'n' },
      option "before" (checkBy cursor?)], [tagOperand])
  | "query" =>
    ([{ option "arg" anything with use := .valued true }], [operand "sql" anything])
  | "reconcile" => ([flag "dry-run"], [])
  | _ => ([], [])

def names : List String :=
  ["init", "write", "read", "history", "delete", "restore", "fetch", "query", "reconcile"]

def topLevel : Level := ⟨version :: shared, [], "help" :: names⟩

def levelOf (name : String) : Level :=
  let (options, operands) := argumentsOf name
  ⟨options ++ shared, operands, []⟩

/-- The command of a name, from the values of its own level. -/
def ofValues? (name : String) (values : Values) : Option Command := do
  let tag := (values.find? "data_type").bind tag?
  let id := (values.find? "id").bind id?
  match name with
  | "init" => return .init (values.find? "force").isSome
  | "write" => return .write (← tag) (← values.find? "body") id
  | "read" => return .read (← tag) (← id)
  | "history" => return .history (← id)
  | "delete" => return .delete (← tag) (← id)
  | "restore" => return .restore (← tag) (← id) (← (values.find? "at").bind instant?)
  | "fetch" =>
    let before := (values.find? "before").bind cursor?
    return .fetch (← tag) ((values.find? "first").bind count?) before
  | "query" => return .query (← values.find? "sql") (values.all "arg")
  | "reconcile" => return .reconcile (values.find? "dry-run").isSome
  | _ => none

/-- Help about a command exists for each command, and for nothing below it. -/
def helpOn : List String → Usage
  | [] => .help
  | [name] => if ("help" :: names).contains name then .help else .unknownCommand
  | _ => .unknownCommand

def sharedValue (inner outer : Values) (name : String) : Option String :=
  (inner.find? name).orElse fun _ => outer.find? name

/-- What the arguments ask for. Options in front of the command are settled behind its own. -/
def Invocation.ofArguments (args : List String) : Except Usage Invocation := do
  match ← topLevel.read .start args with
  | (outer, none) =>
    let outer ← outer.settle
    throw (if outer.values.isEmpty then .nothing else .missingCommand)
  | (outer, some (name, rest)) =>
    if name = "help" then throw (helpOn rest)
    let level := levelOf name
    let (inner, _) ← level.read .start rest
    let inner ← (← inner.settle).complete level
    let outer := (← outer.settle).values
    match ofValues? name inner with
    | none => throw .missingArgument
    | some command =>
      return {
        command
        format := ((sharedValue inner outer "format").bind Format.ofName?).getD .text
        database := sharedValue inner outer "db"
        settings := (sharedValue inner outer "config").getD "vrl.toml" }

end Command
end RecordLedger
