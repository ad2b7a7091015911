import RecordLedger.Query.Expr
import RecordLedger.Query.Shape
import RecordLedger.Query.Token

/-!
Statements as written, and reading them from tokens. A statement selects from one relation, which a
common table expression may have built, or inserts rows into one, updates rows of it or deletes
them, and may then return the rows concerned.
-/

namespace RecordLedger.Query

/-- A column by name. A name between double quotes that names no column is a text. -/
structure Name where
  relation : Option String
  column : String
  fallback : Option Value
deriving Repr

inductive Output
  /-- All columns of the relation, which may be named. -/
  | all (relation : Option String)
  | expr (e : Expr Name) (label : Option String)
deriving Repr

structure Source where
  relation : String
  label : String
deriving Repr

structure Key where
  expr : Expr Name
  descending : Bool
deriving Repr

structure Selection where
  outputs : List Output
  source : Option Source
  condition : Option (Expr Name)
  order : List Key
  limit : Option (Expr Name)
  offset : Option (Expr Name)
deriving Repr

structure CommonTable where
  name : String
  columns : Option (List String)
  selection : Selection
deriving Repr

/-- What becomes of a row that does not go with those that are there. -/
inductive Resolution
  | abort
  | ignore
  | replace
deriving DecidableEq, Repr

/-- The rows of an insertion. -/
inductive Supply
  | values (rows : List (List (Expr Name)))
  | select (s : Selection)
deriving Repr

inductive Verb
  | select (s : Selection)
  | insert (resolution : Resolution) (relation : String) (columns : Option (List String))
    (supply : Supply) (returning : Option (List Output))
  | update (resolution : Resolution) (relation : String) (assignments : List (String × Expr Name))
    (condition : Option (Expr Name)) (returning : Option (List Output))
  | delete (relation : String) (condition : Option (Expr Name)) (returning : Option (List Output))
deriving Repr

structure Statement where
  tables : List CommonTable
  verb : Verb
  parameters : Nat
deriving Repr

/-- The tokens that are left, the greatest parameter so far and the numbers of named ones. -/
structure Reading where
  tokens : List Token
  parameters : Nat
  named : List (String × Nat)

abbrev Reader := StateT Reading Option

namespace Reader

def reserved : List String :=
  ["add", "all", "alter", "and", "as", "between", "case", "check", "collate", "commit",
    "constraint", "create", "cross", "default", "delete", "distinct", "drop", "else", "escape",
    "except", "exists", "from", "full", "group", "having", "in", "index", "inner", "insert",
    "intersect", "into", "is", "isnull", "join", "left", "limit", "natural", "not", "notnull",
    "null", "on", "or", "order", "outer", "primary", "references", "returning", "right", "select",
    "set", "table", "then", "to", "transaction", "union", "unique", "update", "using", "values",
    "when", "where"]

def peek : Reader (Option Token) := do return (← get).tokens.head?

def skip : Reader Unit := modify fun r => { r with tokens := r.tokens.drop 1 }

def accept (t : Token) : Reader Bool := do
  if (← peek) = some t then skip; return true
  else return false

def expect (t : Token) : Reader Unit := do
  if (← accept t) then return () else failure

def acceptWord (w : String) : Reader Bool := accept (.word w)
def acceptSymbol (s : String) : Reader Bool := accept (.symbol s)
def expectWord (w : String) : Reader Unit := expect (.word w)
def expectSymbol (s : String) : Reader Unit := expect (.symbol s)

/-- How often a token stands next, one after the other. -/
def countOf (t : Token) : Reader Nat := do
  let count := ((← get).tokens.takeWhile (· = t)).length
  modify fun r => { r with tokens := r.tokens.drop count }
  return count

def name? : Reader (Option String) := do
  match ← peek with
  | some (.word w) =>
    if reserved.contains w then return none
    else skip; return some w
  | some (.quoted s) => skip; return some (String.ofList (s.toList.map Char.toLower))
  | _ => return none

def name : Reader String := do
  match ← name? with
  | some s => return s
  | none => failure

/-- Repeats a step on a value for as long as it applies; every round takes a token. -/
def repeatOn (step : α → Reader (Option α)) : Nat → α → Reader α
  | 0, a => return a
  | rounds + 1, a => do
    match ← step a with
    | some b => repeatOn step rounds b
    | none => return a

def exhaust (step : α → Reader (Option α)) (a : α) : Reader α := do
  repeatOn step ((← get).tokens.length + 1) a

def separated (item : Reader α) : Reader (List α) := do
  let first ← item
  exhaust (fun items => do
    if (← acceptSymbol ",") then return some (items ++ [← item]) else return none) [first]

/-- The number of a parameter: new ones count on from the greatest so far. -/
def number (p : Parameter) : Reader Nat := do
  let r ← get
  match p with
  | .numbered n => set { r with parameters := max r.parameters n }; return n
  | .next => set { r with parameters := r.parameters + 1 }; return r.parameters + 1
  | .named s =>
    match r.named.find? (·.1 = s) with
    | some (_, n) => return n
    | none =>
      let n := r.parameters + 1
      set { r with parameters := n, named := (s, n) :: r.named }
      return n

/-- The words that stand for truth values where no column has their name. -/
def truthWord? (w : String) : Option Value :=
  if w = "true" then some (.int 1) else if w = "false" then some (.int 0) else none

def column (fallback : Option Value) : Reader (Expr Name) := do
  let first ← name
  if (← acceptSymbol ".") then return .column ⟨some first, ← name, none⟩
  else return .column ⟨none, first, fallback⟩

/-- An operand; `whole` reads what stands between parentheses. -/
def primary (whole : Reader (Expr Name)) : Reader (Expr Name) := do
  match ← peek with
  | some (.text s) => skip; return .literal (.text s)
  | some (.number n) => skip; return .literal (.ofNumeral n)
  | some (.parameter p) => skip; return .parameter (← number p)
  | some (.quoted s) => column (some (.text s))
  | some (.symbol "(") =>
    skip
    let e ← whole
    expectSymbol ")"
    return e
  | some (.word "null") => skip; return .literal .null
  | some (.word w) => column (truthWord? w)
  | _ => failure

/-- An operand with signs in front. A number takes a minus sign into its own value. -/
def signed (whole : Reader (Expr Name)) : Nat → Reader (Expr Name)
  | 0 => failure
  | fuel + 1 => do
    if (← acceptSymbol "+") then return .plain (← signed whole fuel)
    else if (← acceptSymbol "-") then
      match ← peek with
      | some (.number n) => skip; return .literal (.ofNumeral { n with negative := true })
      | _ => return .negate (← signed whole fuel)
    else primary whole

def concatenation (whole : Reader (Expr Name)) : Reader (Expr Name) := do
  let operand := do signed whole ((← get).tokens.length + 1)
  exhaust (fun a => do
    if (← acceptSymbol "||") then return some (.append a (← operand)) else return none)
    (← operand)

def inequality? : Option Token → Option Comparison
  | some (.symbol "<") => some .lt
  | some (.symbol "<=") => some .le
  | some (.symbol ">") => some .gt
  | some (.symbol ">=") => some .ge
  | _ => none

def relation (whole : Reader (Expr Name)) : Reader (Expr Name) := do
  exhaust (fun a => do
    match inequality? (← peek) with
    | some op => skip; return some (.compare op a (← concatenation whole))
    | none => return none)
    (← concatenation whole)

def negated (n : Bool) (e : Expr Name) : Expr Name := if n then .not e else e

/-- What may follow the word `not` behind an operand, or stand without it. -/
def membership (whole : Reader (Expr Name)) (n : Bool) (a : Expr Name) :
    Reader (Option (Expr Name)) := do
  if (← acceptWord "in") then
    expectSymbol "("
    if (← acceptSymbol ")") then return some (negated n (a.among []))
    let list ← separated whole
    expectSymbol ")"
    return some (negated n (a.among list))
  else if (← acceptWord "between") then
    let low ← relation whole
    expectWord "and"
    return some (negated n (a.between low (← relation whole)))
  else if n then
    expectWord "null"
    return some (.not (.same a (.literal .null)))
  else return none

/-- Equality, null tests and membership bind equally. -/
def equality (whole : Reader (Expr Name)) : Reader (Expr Name) := do
  exhaust (fun a => do
    if (← acceptSymbol "=") then return some (.compare .eq a (← relation whole))
    else if (← acceptSymbol "!=") then return some (.compare .ne a (← relation whole))
    else if (← acceptWord "is") then
      let n ← acceptWord "not"
      return some (negated n (.same a (← relation whole)))
    else if (← acceptWord "isnull") then return some (.same a (.literal .null))
    else if (← acceptWord "notnull") then return some (.not (.same a (.literal .null)))
    else membership whole (← acceptWord "not") a)
    (← relation whole)

def negation (whole : Reader (Expr Name)) : Reader (Expr Name) := do
  let count ← countOf (.word "not")
  return Nat.repeat .not count (← equality whole)

def conjunction (whole : Reader (Expr Name)) : Reader (Expr Name) := do
  exhaust (fun a => do
    if (← acceptWord "and") then return some (.both a (← negation whole)) else return none)
    (← negation whole)

def disjunction (whole : Reader (Expr Name)) : Reader (Expr Name) := do
  exhaust (fun a => do
    if (← acceptWord "or") then return some (.either a (← conjunction whole)) else return none)
    (← conjunction whole)

/-- An expression that nests at most `depth` parentheses. -/
def exprWithin : Nat → Reader (Expr Name)
  | 0 => failure
  | depth + 1 => disjunction (exprWithin depth)

def expr : Reader (Expr Name) := do exprWithin ((← get).tokens.length + 1)

/-- Reads with `p` if a word stands next. -/
def after (w : String) (p : Reader α) : Reader (Option α) := do
  if (← acceptWord w) then return some (← p) else return none

/-- A name given with or without the word `as`; a text will do as well. -/
def label? : Reader (Option String) := do
  let required ← acceptWord "as"
  match ← peek with
  | some (.text s) => skip; return some (String.ofList (s.toList.map Char.toLower))
  | _ =>
    match ← name? with
    | some s => return some s
    | none => if required then failure else return none

def output : Reader Output := do
  if (← acceptSymbol "*") then return .all none
  match (← get).tokens with
  | .word w :: .symbol "." :: .symbol "*" :: _ => skip; skip; skip; return .all (some w)
  | _ =>
    let e ← expr
    return .expr e (← label?)

def source : Reader Source := do
  let relation ← name
  return ⟨relation, (← label?).getD relation⟩

def key : Reader Key := do
  let e ← expr
  if (← acceptWord "desc") then return ⟨e, true⟩
  else
    let _ ← acceptWord "asc"
    return ⟨e, false⟩

/-- A limit, with an offset behind it or in front of it. -/
def limits : Reader (Expr Name × Option (Expr Name)) := do
  let first ← expr
  if (← acceptSymbol ",") then return (← expr, some first)
  else return (first, ← after "offset" expr)

def selection : Reader Selection := do
  let _ ← acceptWord "all"
  let outputs ← separated output
  let source ← after "from" source
  let condition ← after "where" expr
  let order ← after "order" (do expectWord "by"; separated key)
  let limits ← after "limit" limits
  return ⟨outputs, source, condition, order.getD [], limits.map (·.1), limits.bind (·.2)⟩

def enclosed (p : Reader α) : Reader α := do
  expectSymbol "("
  let a ← p
  expectSymbol ")"
  return a

def columnNames? : Reader (Option (List String)) := do
  if (← peek) = some (.symbol "(") then return some (← enclosed (separated name))
  else return none

def commonTable : Reader CommonTable := do
  let name ← Reader.name
  let columns ← columnNames?
  expectWord "as"
  let selection ← enclosed do expectWord "select"; selection
  return ⟨name, columns, selection⟩

def commonTables : Reader (List CommonTable) := do
  let _ ← acceptWord "recursive"
  separated commonTable

/-- A change is undone as a whole unless it is said what becomes of a row in the way. -/
def resolution : Reader Resolution := do
  if (← acceptWord "or") then
    if (← acceptWord "ignore") then return .ignore
    else if (← acceptWord "replace") then return .replace
    else if (← acceptWord "rollback") then return .abort
    else
      expectWord "abort"
      return .abort
  else return .abort

def supply : Reader Supply := do
  if (← acceptWord "values") then return .values (← separated (enclosed (separated expr)))
  else
    expectWord "select"
    return .select (← selection)

def returning : Reader (Option (List Output)) := after "returning" (separated output)

def insertion (r : Resolution) : Reader Verb := do
  expectWord "into"
  return .insert r (← name) (← columnNames?) (← supply) (← returning)

def assignment : Reader (String × Expr Name) := do
  let column ← name
  expectSymbol "="
  return (column, ← expr)

def verb : Reader Verb := do
  if (← acceptWord "select") then return .select (← selection)
  else if (← acceptWord "insert") then insertion (← resolution)
  else if (← acceptWord "replace") then insertion .replace
  else if (← acceptWord "update") then
    let r ← resolution
    let relation ← name
    expectWord "set"
    return .update r relation (← separated assignment) (← after "where" expr) (← returning)
  else
    expectWord "delete"
    expectWord "from"
    return .delete (← name) (← after "where" expr) (← returning)

/-- A statement that takes all tokens. -/
def statement : Reader Statement := do
  let tables ← after "with" commonTables
  let verb ← verb
  let r ← get
  if r.tokens.isEmpty then return ⟨tables.getD [], verb, r.parameters⟩ else failure

end Reader

/-- Reads the first statement of a text. -/
def Statement.ofText? (sql : String) : Option Statement := do
  let tokens ← Token.lex sql
  (Reader.statement.run ⟨tokens, 0, []⟩).map (·.1)

end RecordLedger.Query
