import RecordLedger.Command.Usage

/-!
Reading arguments by a description of what is allowed. A value is checked when the next argument
begins or the arguments end, an attached one at once; so the first fault in the order of reading is
the one that is reported.
-/

namespace RecordLedger.Command

inductive Use
  | help
  | version
  | flag
  /-- Takes a value, and may be given once or any number of times. -/
  | valued (many : Bool)
deriving DecidableEq, Repr

/-- An argument by its name: an option, which may have a short form, or an operand. -/
structure Argument where
  name : String
  short : Option Char
  use : Use
  required : Bool
  check : String → Option Usage

/-- What may stand on one level of a command line. -/
structure Level where
  options : List Argument
  operands : List Argument
  commands : List String

/-- Values by the names of their arguments, in the order given. -/
abbrev Values := List (String × String)

namespace Values

def find? (values : Values) (name : String) : Option String :=
  (List.find? (·.1 = name) values).map (·.2)

def all (values : Values) (name : String) : List String :=
  (values.filter (·.1 = name)).map (·.2)

end Values

/-- An argument whose value was not checked yet; without a value it waits for one. -/
structure Pending where
  argument : Argument
  value : Option String

structure Reading where
  values : Values
  pending : Option Pending
  /-- How many operands were read. -/
  position : Nat
  /-- After two hyphens everything is an operand. -/
  operandsOnly : Bool

namespace Reading

def start : Reading := ⟨[], none, 0, false⟩

def accept (r : Reading) (a : Argument) (value : String) : Except Usage Reading :=
  if a.use ≠ .valued true && (Values.find? r.values a.name).isSome then .error .repeated
  else
    match a.check value with
    | some fault => .error fault
    | none => .ok { r with values := r.values ++ [(a.name, value)] }

def settle (r : Reading) : Except Usage Reading :=
  match r.pending with
  | none => .ok r
  | some ⟨_, none⟩ => .error .refusedValue
  | some ⟨a, some value⟩ => { r with pending := none }.accept a value

def isWaiting (r : Reading) : Bool := r.pending.any (·.value.isNone)

/-- Begins an option, with the value attached to it if there is one. -/
def begin (r : Reading) (a : Argument) (attached : Option String) : Except Usage Reading := do
  match a.use, attached with
  | .valued _, some value => (← r.settle).accept a value
  | .valued _, none => return { ← r.settle with pending := some ⟨a, none⟩ }
  | _, some _ => throw .needlessValue
  | .help, none =>
    let _ ← r.settle
    throw .help
  | .version, none =>
    let _ ← r.settle
    throw .version
  | .flag, none => (← r.settle).accept a "true"

/-- Reads an option in its long form, without the two hyphens. -/
def long (level : Level) (r : Reading) (text : List Char) : Except Usage Reading :=
  let (name, rest) := text.span (· != '=')
  match level.options.find? (·.name = String.ofList name) with
  | none => .error .unknownArgument
  | some a => r.begin a (if rest.isEmpty then none else some (String.ofList (rest.drop 1)))

/-- Reads options in their short forms behind one hyphen; the rest behind one that takes a value is
that value. -/
def short (level : Level) (r : Reading) : List Char → Except Usage Reading
  | [] => .ok r
  | c :: rest =>
    match level.options.find? (·.short = some c) with
    | none => .error .unknownArgument
    | some a =>
      match a.use with
      | .valued _ =>
        r.begin a (match rest with
          | [] => none
          | '=' :: value => some (String.ofList value)
          | value => some (String.ofList value))
      | _ => do short level (← r.begin a none) rest

def operand (level : Level) (r : Reading) (text : String) : Except Usage Reading :=
  match level.operands[r.position]? with
  | some a => do
    return { ← r.settle with pending := some ⟨a, some text⟩, position := r.position + 1 }
  | none =>
    if level.commands.isEmpty || (r.operandsOnly && level.commands.contains text) then
      .error .unknownArgument
    else .error .unknownCommand

/-- Reads an argument that is no command. -/
def argument (level : Level) (r : Reading) (text : String) : Except Usage Reading :=
  if r.operandsOnly then r.operand level text
  else
    match text.toList with
    | ['-', '-'] => .ok { r with operandsOnly := true }
    | '-' :: '-' :: rest => r.long level rest
    | '-' :: c :: rest => r.short level (c :: rest)
    | _ =>
      match r.pending with
      | some ⟨a, none⟩ => .ok { r with pending := some ⟨a, some text⟩ }
      | _ => r.operand level text

/-- Checks that nothing required is missing. -/
def complete (level : Level) (r : Reading) : Except Usage Values :=
  if (level.options ++ level.operands).all fun a =>
      !a.required || (Values.find? r.values a.name).isSome then .ok r.values
  else .error .missingArgument

end Reading

/-- Reads arguments up to a command, which is returned with the arguments behind it. -/
def Level.read (level : Level) (r : Reading) :
    List String → Except Usage (Reading × Option (String × List String))
  | [] => .ok (r, none)
  | text :: rest =>
    if !r.operandsOnly && !r.isWaiting && level.commands.contains text then
      .ok (r, some (text, rest))
    else do level.read (← r.argument level text) rest

end RecordLedger.Command
