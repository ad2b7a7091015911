import RecordLedger.Query.Value

/-!
The tokens of a statement. Only the first statement of a text counts: its tokens end before the
first semicolon. Letter case matters between quotes alone.
-/

namespace RecordLedger.Query

inductive Parameter
  | next
  | numbered (n : Nat)
  | named (name : String)
deriving DecidableEq, Repr

inductive Token
  /-- A keyword or a plain name, in lower case. -/
  | word (s : String)
  /-- A name between double quotes. -/
  | quoted (s : String)
  /-- A text between single quotes. -/
  | text (s : String)
  | number (n : Json.Numeral)
  | parameter (p : Parameter)
  | symbol (s : String)
deriving DecidableEq, Repr

namespace Token

def isSpace (c : Char) : Bool :=
  c == ' ' || c == '\t' || c == '\n' || c == '\x0c' || c == '\r' || c == '\ufeff'

/-- Every character outside ASCII may stand in a name. -/
def isNameChar (c : Char) : Bool := c.isAlphanum || c == '_' || c == '$' || 127 < c.toNat

def startsName (c : Char) : Bool := isNameChar c && !c.isDigit && c != '$'

/-- Reads up to a closing quote; a doubled quote stands for itself. -/
def readQuoted (quote : Char) : List Char → Option (List Char × List Char)
  | [] => none
  | c :: cs =>
    if c == quote then
      match cs with
      | d :: ds =>
        if d == quote then (readQuoted quote ds).map fun (s, rest) => (quote :: s, rest)
        else some ([], d :: ds)
      | [] => some ([], [])
    else (readQuoted quote cs).map fun (s, rest) => (c :: s, rest)

/-- What follows a comment; one that is not closed takes the rest of the text. -/
def afterComment : List Char → List Char
  | [] => []
  | '*' :: '/' :: cs => cs
  | _ :: cs => afterComment cs

def maxParameter : Nat := 32766

def readParameter (cs : List Char) : Option (Token × List Char) :=
  match Text.Numeral.takeDigits cs with
  | ([], rest) => some (.parameter .next, rest)
  | (ds, rest) =>
    let n := Text.Numeral.value 10 ds
    if n = 0 || maxParameter < n then none else some (.parameter (.numbered n), rest)

def readNamed (mark : Char) (cs : List Char) : Option (Token × List Char) :=
  match cs.span isNameChar with
  | ([], _) => none
  | (name, rest) => some (.parameter (.named (String.ofList (mark :: name))), rest)

/-- A number has to end where a name could not go on. -/
def readNumber (cs : List Char) : Option (Token × List Char) :=
  match Value.takeMagnitude false cs with
  | none => none
  | some (n, rest) => if rest.head?.any isNameChar then none else some (.number n, rest)

/-- Two-character operators by their single meaning. -/
def operator? : Char → Char → Option String
  | '=', '=' => some "="
  | '!', '=' => some "!="
  | '<', '>' => some "!="
  | '<', '=' => some "<="
  | '>', '=' => some ">="
  | '|', '|' => some "||"
  | _, _ => none

def isSymbol (c : Char) : Bool := ['(', ')', ',', '*', '+', '-', '=', '<', '>', '.'].contains c

def readSymbol (c : Char) (cs : List Char) : Option (Token × List Char) :=
  match cs.head?.bind (operator? c) with
  | some s => some (.symbol s, cs.drop 1)
  | none => if isSymbol c then some (.symbol c.toString, cs) else none

def next? (c : Char) (cs : List Char) : Option (Token × List Char) :=
  if c == '\'' then (readQuoted c cs).map fun (s, rest) => (.text (String.ofList s), rest)
  else if c == '"' then (readQuoted c cs).map fun (s, rest) => (.quoted (String.ofList s), rest)
  else if c == '?' then readParameter cs
  else if c == ':' || c == '@' || c == '$' || c == '#' then readNamed c cs
  else if startsName c then
    let (name, rest) := (c :: cs).span isNameChar
    some (.word (String.ofList (name.map Char.toLower)), rest)
  else if c.isDigit || (c == '.' && cs.head?.any Char.isDigit) then readNumber (c :: cs)
  else readSymbol c cs

/-- Splits a text into the tokens of its first statement; every step takes a character. -/
def lexWith : Nat → List Char → Option (List Token)
  | 0, _ => none
  | _ + 1, [] => some []
  | _ + 1, '\x00' :: _ => some []
  | _ + 1, ';' :: _ => some []
  | fuel + 1, '-' :: '-' :: cs => lexWith fuel (cs.dropWhile (· != '\n'))
  | fuel + 1, '/' :: '*' :: cs => lexWith fuel (afterComment cs)
  | fuel + 1, c :: cs =>
    if isSpace c then lexWith fuel cs
    else
      match next? c cs with
      | none => none
      | some (token, rest) => (lexWith fuel rest).map (token :: ·)

def lex (sql : String) : Option (List Token) := lexWith (sql.toList.length + 1) sql.toList

end Token
end RecordLedger.Query
