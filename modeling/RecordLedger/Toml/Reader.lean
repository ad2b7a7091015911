import RecordLedger.Toml.Quoted
import RecordLedger.Toml.Scalar

/-!
Reading TOML: lines with headers and with keys and their values, one after the other.
-/

namespace RecordLedger.Toml

abbrev Reader := StateT (List Char) Option

namespace Reader

def peek : Reader (Option Char) := do return (← get).head?

def accept (c : Char) : Reader Bool := do
  if (← peek) = some c then modify (·.drop 1); return true
  else return false

def expect (c : Char) : Reader Unit := do
  if (← accept c) then return () else failure

def skipSpaces : Reader Unit := modify (·.dropWhile Quoted.isSpace)

def lineEnd : Reader Unit := fun cs =>
  match cs with
  | [] => some ((), [])
  | cs => (Quoted.newline? cs).map ((), ·)

def skipComment : Reader Unit := do
  if (← accept '#') then modify (·.dropWhile Quoted.isLineChar)

def restOfLine : Reader Unit := do
  skipSpaces
  skipComment
  lineEnd

/-- Skips blanks, comments and line ends, in at most `fuel` lines. -/
def skipLines : Nat → Reader Unit
  | 0 => return ()
  | fuel + 1 => do
    skipSpaces
    skipComment
    match Quoted.newline? (← get) with
    | some rest => set rest; skipLines fuel
    | none => return ()

def skipAll : Reader Unit := do skipLines ((← get).length + 1)

/-- Repeats a step on a value until it returns none; every round takes a character. -/
def repeatOn (step : α → Reader (Option α)) : Nat → α → Reader α
  | 0, _ => failure
  | rounds + 1, a => do
    match ← step a with
    | some a => repeatOn step rounds a
    | none => return a

def exhaust (step : α → Reader (Option α)) (a : α) : Reader α := do
  repeatOn step ((← get).length + 2) a

def isBareKeyChar (c : Char) : Bool := c.isAlphanum || c == '-' || c == '_'

def simpleKey : Reader String := do
  let cs ← get
  match Quoted.readLine cs with
  | some (key, rest) => set rest; return String.ofList key
  | none =>
    match cs.span isBareKeyChar with
    | ([], _) => failure
    | (key, rest) => set rest; return String.ofList key

/-- One key or several with dots between them: a path and the key at its end. -/
def key : Reader (List String × String) := do
  let first ← simpleKey
  exhaust (fun (path, last) => do
    let before ← get
    skipSpaces
    if (← accept '.') then
      skipSpaces
      return some (path ++ [last], ← simpleKey)
    else
      set before
      return none) ([], first)

def assignment (value : Reader Toml) : Reader ((List String × String) × Toml) := do
  let k ← key
  skipSpaces
  expect '='
  skipSpaces
  return (k, ← value)

/-- The elements of an array behind its opening bracket. A comma may stand behind the last one. -/
def elements (value : Reader Toml) : Reader (List Toml) := do
  let (found, _) ← exhaust (fun (found, closed) => do
    if closed then return none
    skipAll
    if (← accept ']') then return some (found, true)
    let x ← value
    skipAll
    if (← accept ',') then return some (found ++ [x], false)
    expect ']'
    return some (found ++ [x], true)) ([], false)
  return found

/-- The members of a table between braces, which takes no line ends and no comma at its end. -/
def inlineTable (value : Reader Toml) : Reader Toml := do
  skipSpaces
  if (← accept '\x7d') then return .table .inline []
  let ms ← exhaust (fun (ms, closed) => do
    if closed then return none
    skipSpaces
    let ((path, last), x) ← assignment value
    skipSpaces
    match assign path last x .header ms with
    | some (.table _ ms) =>
      if (← accept ',') then return some (ms, false)
      expect '\x7d'
      return some (ms, true)
    | _ => failure) (([] : Members), false)
  return .table .inline ms.1

def lifted (read : List Char → Option (α × List Char)) : Reader α := read

/-- A value that nests at most `depth` arrays and tables. -/
def valueWithin : Nat → Reader Toml
  | 0 => failure
  | depth + 1 => do
    match ← peek with
    | some '"' => return .string (String.ofList (← lifted Quoted.read))
    | some '\'' => return .string (String.ofList (← lifted Quoted.read))
    | some '[' =>
      modify (·.drop 1)
      return .array (← elements (valueWithin depth))
    | some '\x7b' =>
      modify (·.drop 1)
      inlineTable (valueWithin depth)
    | _ =>
      let (scalar, rest) := Scalar.take (← get)
      set rest
      (Scalar.ofChars? scalar : Option Toml)

def value : Reader Toml := do valueWithin ((← get).length + 1)

structure Progress where
  document : Toml
  path : List String

def header (p : Progress) : Reader Progress := do
  let double ← accept '['
  skipSpaces
  let (path, last) ← key
  skipSpaces
  expect ']'
  if double then expect ']'
  restOfLine
  let document ← underHeaders (if double then openElement last else openTable last) path p.document
  return ⟨document, path ++ [last]⟩

def entry (p : Progress) : Reader Progress := do
  let ((path, last), x) ← assignment value
  restOfLine
  let document ← underHeaders (assign path last x) p.path p.document
  return { p with document }

def line (p : Progress) : Reader (Option Progress) := do
  skipAll
  match ← peek with
  | none => return none
  | some '[' =>
    modify (·.drop 1)
    return some (← header p)
  | some _ => return some (← entry p)

end Reader

def ofText? (s : String) : Option Toml :=
  let cs := match s.toList with
    | '\ufeff' :: cs => cs
    | cs => cs
  ((Reader.exhaust Reader.line ⟨.table .header [], []⟩).run cs).map (·.1.document)

end RecordLedger.Toml
