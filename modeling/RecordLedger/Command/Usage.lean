/-!
Ways in which a command line is not a command to run.
-/

namespace RecordLedger.Command

inductive Usage
  | help
  | version
  /-- Nothing was asked for. -/
  | nothing
  | missingCommand
  | unknownCommand
  | unknownArgument
  | missingArgument
  /-- A value that its argument cannot read. -/
  | malformedValue
  /-- A value that is none of those allowed, or no value at all. -/
  | refusedValue
  /-- A value for an argument that takes none. -/
  | needlessValue
  /-- An argument that was given twice. -/
  | repeated
deriving DecidableEq, Repr

def Usage.isRequest : Usage → Bool
  | .help | .version => true
  | _ => false

def Usage.message : Usage → String
  | .help =>
    "Commands: init, write, read, history, delete, restore, fetch, query, reconcile\n" ++
      "Options: --format text|json, --db PATH, --config PATH, --verbose"
  | .version => "vrl 0.1.0"
  | .nothing => "nothing to do"
  | .missingCommand => "a command is missing"
  | .unknownCommand => "no such command"
  | .unknownArgument => "no such argument"
  | .missingArgument => "a required argument is missing"
  | .malformedValue => "a value cannot be read"
  | .refusedValue => "a value is none of those allowed"
  | .needlessValue => "a value for an argument that takes none"
  | .repeated => "an argument was given twice"

end RecordLedger.Command
