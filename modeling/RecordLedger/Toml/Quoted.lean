import RecordLedger.Text.Hex
import RecordLedger.Text.Numeral

/-!
Strings of TOML: between double quotes with escapes or between single quotes as they are, on one
line or, with each quote tripled, on several. A string is written in the first style that shows it
without escapes.
-/

namespace RecordLedger.Toml.Quoted

def isLineChar (c : Char) : Bool := c == '\t' || (32 ≤ c.toNat && c.toNat != 127)

def isSpace (c : Char) : Bool := c == ' ' || c == '\t'

def newline? : List Char → Option (List Char)
  | '\n' :: cs => some cs
  | '\r' :: '\n' :: cs => some cs
  | _ => none

def escape? : Char → Option Char
  | 'b' => some '\x08'
  | 't' => some '\t'
  | 'n' => some '\n'
  | 'f' => some '\x0c'
  | 'r' => some '\r'
  | '"' => some '"'
  | '\\' => some '\\'
  | _ => none

/-- The character of a number given by its digits. Surrogates are no characters. -/
def char? (ds : List Char) : Option Char := do
  let n := Text.Numeral.value 16 (← ds.mapM Text.Hex.digit?)
  if n < 0xD800 || (0xE000 ≤ n && n < 0x110000) then some (Char.ofNat n) else none

/-- Splits off what an escape stands for, behind its backslash. -/
def takeEscape : List Char → Option (Char × List Char)
  | 'u' :: a :: b :: c :: d :: cs => (char? [a, b, c, d]).map (·, cs)
  | 'U' :: a :: b :: c :: d :: e :: f :: g :: h :: cs =>
    (char? [a, b, c, d, e, f, g, h]).map (·, cs)
  | e :: cs => (escape? e).map (·, cs)
  | [] => none

def andThen (c : Char) : Option (List Char × List Char) → Option (List Char × List Char) :=
  Option.map fun (s, rest) => (c :: s, rest)

/-- Reads up to the closing double quote, in at most `fuel` characters. -/
def readBasic : Nat → List Char → Option (List Char × List Char)
  | 0, _ => none
  | _ + 1, [] => none
  | _ + 1, '"' :: cs => some ([], cs)
  | fuel + 1, '\\' :: cs => do
    let (c, rest) ← takeEscape cs
    andThen c (readBasic fuel rest)
  | fuel + 1, c :: cs => if isLineChar c then andThen c (readBasic fuel cs) else none

def readLiteral : List Char → Option (List Char × List Char)
  | [] => none
  | '\'' :: cs => some ([], cs)
  | c :: cs => if isLineChar c then andThen c (readLiteral cs) else none

/-- What follows a backslash at the end of a line: the next character that is not blank. -/
def continued? (cs : List Char) : Option (List Char) :=
  (newline? (cs.dropWhile isSpace)).map
    (·.dropWhile fun c => isSpace c || c == '\n' || c == '\r')

/-- Reads up to three closing double quotes; one or two more in front of them belong to the
string. -/
def readMultilineBasic : Nat → List Char → Option (List Char × List Char)
  | 0, _ => none
  | _ + 1, [] => none
  | _ + 1, '"' :: '"' :: '"' :: '"' :: '"' :: '"' :: _ => none
  | fuel + 1, '"' :: '"' :: '"' :: '"' :: cs =>
    andThen '"' (readMultilineBasic fuel ('"' :: '"' :: '"' :: cs))
  | _ + 1, '"' :: '"' :: '"' :: cs => some ([], cs)
  | fuel + 1, '\\' :: cs =>
    match continued? cs with
    | some rest => readMultilineBasic fuel rest
    | none => do
      let (c, rest) ← takeEscape cs
      andThen c (readMultilineBasic fuel rest)
  | fuel + 1, c :: cs =>
    match newline? (c :: cs) with
    | some rest => andThen '\n' (readMultilineBasic fuel rest)
    | none => if isLineChar c then andThen c (readMultilineBasic fuel cs) else none

def readMultilineLiteral : Nat → List Char → Option (List Char × List Char)
  | 0, _ => none
  | _ + 1, [] => none
  | _ + 1, '\'' :: '\'' :: '\'' :: '\'' :: '\'' :: '\'' :: _ => none
  | fuel + 1, '\'' :: '\'' :: '\'' :: '\'' :: cs =>
    andThen '\'' (readMultilineLiteral fuel ('\'' :: '\'' :: '\'' :: cs))
  | _ + 1, '\'' :: '\'' :: '\'' :: cs => some ([], cs)
  | fuel + 1, c :: cs =>
    match newline? (c :: cs) with
    | some rest => andThen '\n' (readMultilineLiteral fuel rest)
    | none => if isLineChar c then andThen c (readMultilineLiteral fuel cs) else none

/-- A line that ends right behind the opening quotes is no part of the string. -/
def body (cs : List Char) : List Char := (newline? cs).getD cs

def readLine : List Char → Option (List Char × List Char)
  | '"' :: cs => readBasic (cs.length + 1) cs
  | '\'' :: cs => readLiteral cs
  | _ => none

def read : List Char → Option (List Char × List Char)
  | '"' :: '"' :: '"' :: cs => readMultilineBasic (cs.length + 1) (body cs)
  | '\'' :: '\'' :: '\'' :: cs => readMultilineLiteral (cs.length + 1) (body cs)
  | cs => readLine cs

def longestRun (c : Char) (cs : List Char) : Nat := go 0 0 cs
where
  go (longest current : Nat) : List Char → Nat
    | [] => longest
    | d :: cs => if d == c then go (max longest (current + 1)) (current + 1) cs else go longest 0 cs

def needsEscape (c : Char) : Bool :=
  (c.toNat < 32 && c != '\t' && c != '\n') || c.toNat == 127

def letter? (c : Char) : Option Char :=
  if c == '\x08' then some 'b'
  else if c == '\t' then some 't'
  else if c == '\n' then some 'n'
  else if c == '\x0c' then some 'f'
  else if c == '\r' then some 'r'
  else if c == '"' then some '"'
  else if c == '\\' then some '\\'
  else none

def escaped (multiline : Bool) (c : Char) : List Char :=
  if multiline && c == '\n' then [c]
  else
    match letter? c with
    | some l => ['\\', l]
    | none =>
      if needsEscape c then
        ['\\', 'u', '0', '0'] ++ (Text.Hex.encode [c.toNat.toUInt8]).map Char.toUpper
      else [c]

/-- A string between tripled quotes. With a line's end inside, it starts on a line of its own. -/
def tripled (quote : Char) (multiline : Bool) (s : List Char) : List Char :=
  List.replicate 3 quote ++ (if multiline then ['\n'] else []) ++ s ++ List.replicate 3 quote

def write (s : List Char) : List Char :=
  let multiline := s.contains '\n'
  let control := s.any needsEscape
  let backslash := s.contains '\\'
  if !control && !backslash && !s.contains '"' && !multiline then '"' :: s ++ ['"']
  else if !control && !s.contains '\'' && !multiline then '\'' :: s ++ ['\'']
  else if !control && !backslash && longestRun '"' s ≤ 2 then tripled '"' multiline s
  else if !control && longestRun '\'' s ≤ 2 then tripled '\'' multiline s
  else if multiline then tripled '"' multiline (s.flatMap (escaped true))
  else '"' :: s.flatMap (escaped false) ++ ['"']

end RecordLedger.Toml.Quoted
