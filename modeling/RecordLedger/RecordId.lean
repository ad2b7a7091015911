import RecordLedger.Text.Blank
import RecordLedger.Text.Hex

/-!
Record ids: sixteen octets, written as a UUID. The canonical text has lower-case digits in five
groups; reading also takes upper-case digits, the digits without hyphens, the groups in braces and
the groups after `urn:uuid:`. Ids are ordered by their octets.
-/

namespace RecordLedger

structure RecordId where
  octets : List UInt8
  length_octets : octets.length = 16
deriving DecidableEq

namespace RecordId

def ofOctets? (octets : List UInt8) : Option RecordId :=
  if h : octets.length = 16 then some ⟨octets, h⟩ else none

instance : Inhabited RecordId := ⟨⟨List.replicate 16 0, rfl⟩⟩

/-- The id made at a time: six octets of the time in milliseconds, then ten of chance with the
version 7 and the variant in their places. Ids of different times are in the order of time. -/
def generated (millis chance : Nat) : RecordId where
  octets :=
    ((List.range 6).map fun i => UInt8.ofNat (millis / Nat.pow 256 (5 - i))) ++
      (List.range 10).map fun i =>
        let octet := UInt8.ofNat (chance / Nat.pow 256 i)
        if i = 0 then 0x70 ||| (octet &&& 0x0f)
        else if i = 2 then 0x80 ||| (octet &&& 0x3f)
        else octet
  length_octets := by simp

def groups : List Nat := [8, 4, 4, 4, 12]

/-- Puts a hyphen after each group but the last. -/
def hyphenate : List Nat → List Char → List Char
  | [], cs => cs
  | [_], cs => cs
  | n :: m :: ns, cs => cs.take n ++ '-' :: hyphenate (m :: ns) (cs.drop n)

/-- Takes the hyphens out again; the groups must have their lengths. -/
def unhyphenate? : List Nat → List Char → Option (List Char)
  | [], cs => if cs.isEmpty then some [] else none
  | [n], cs => if cs.length = n then some cs else none
  | n :: m :: ns, cs =>
    match cs.drop n with
    | '-' :: rest => (unhyphenate? (m :: ns) rest).map (cs.take n ++ ·)
    | _ => none

def simpleText (id : RecordId) : List Char := Text.Hex.encode id.octets

def chars (id : RecordId) : List Char := hyphenate groups id.simpleText

def text (id : RecordId) : String := String.ofList id.chars

def shortText (id : RecordId) : String := String.ofList (id.simpleText.take 8)

def urn : List Char := "urn:uuid:".toList

/-- The rest of a text after the URN's front part, in any case. -/
def afterUrn? (cs : List Char) : Option (List Char) :=
  if (cs.take urn.length).map Char.toLower = urn then some (cs.drop urn.length) else none

def insideBraces? : List Char → Option (List Char)
  | '\x7b' :: cs => if cs.getLast? = some '\x7d' then some cs.dropLast else none
  | _ => none

def ofSimple? (cs : List Char) : Option RecordId := (Text.Hex.decode? cs).bind ofOctets?

def ofHyphenated? (cs : List Char) : Option RecordId := (unhyphenate? groups cs).bind ofSimple?

def ofChars? (cs : List Char) : Option RecordId :=
  match insideBraces? cs with
  | some inside => ofHyphenated? inside
  | none =>
    match afterUrn? cs with
    | some rest => ofHyphenated? rest
    | none =>
      match ofSimple? cs with
      | some id => some id
      | none => ofHyphenated? cs

def ofText? (s : String) : Option RecordId := ofChars? s.toList

/-- Why a text does not spell an id. Lengths and offsets count the octets of the text. -/
inductive Fault
  | length (found : Nat)
  | character (found : Char) (offset : Nat)
  | groupCount (found : Nat)
  | groupLength (group expected found : Nat)
deriving DecidableEq, Repr

def Fault.message : Fault → String
  | .length found => s!"invalid length: found {found}"
  | .character found offset =>
    "invalid character: found `" ++ found.toString ++ s!"` at {offset}"
  | .groupCount found => s!"invalid group count: expected 5, found {found}"
  | .groupLength group expected found =>
    s!"invalid group length in group {group}: expected {expected}, found {found}"

def octetCount (cs : List Char) : Nat := (String.ofList cs).utf8ByteSize

def hyphenOffsets (offset : Nat) : List Char → List Nat
  | [] => []
  | c :: cs =>
    if c == '-' then offset :: hyphenOffsets (offset + c.utf8Size) cs
    else hyphenOffsets (offset + c.utf8Size) cs

/-- The first character that is neither a digit nor a hyphen, with its offset. -/
def firstStray? (offset : Nat) : List Char → Option (Char × Nat)
  | [] => none
  | c :: cs =>
    if Text.Hex.isDigit c || c == '-' then firstStray? (offset + c.utf8Size) cs
    else some (c, offset)

/-- The fault of the first group whose hyphen is out of place; `start` is where the group should
begin. -/
def firstGroupFault? : Nat → Nat → List Nat → List Nat → Option Fault
  | group, start, n :: ns, p :: ps =>
    if p = start + n then firstGroupFault? (group + 1) (start + n + 1) ns ps
    else some (.groupLength group n (p - start))
  | _, _, _, _ => none

/-- The fault in the digits and hyphens of a text of `size` octets; `grouped` texts need hyphens. -/
def groupFault (grouped : Bool) (size offset : Nat) (cs : List Char) : Fault :=
  match firstStray? offset cs with
  | some (c, at_) => .character c at_
  | none =>
    let hyphens := hyphenOffsets 0 cs
    if !grouped && hyphens.isEmpty then .length size
    else if hyphens.length ≠ 4 then .groupCount (hyphens.length + 1)
    else (firstGroupFault? 0 0 groups hyphens).getD (.groupLength 4 12 (size - 24))

/-- The fault of a text that spells no id. A text that has the length of the groups, in braces or
after the URN's front part or bare, is judged by the groups alone. -/
def fault (cs : List Char) : Fault :=
  let size := octetCount cs
  let core :=
    match insideBraces? cs, afterUrn? cs with
    | some inside, _ => if size = 38 then inside else cs
    | none, some rest => if size = 45 then rest else cs
    | none, none => cs
  let size := octetCount core
  if size = 0 || 45 < size then .length size
  else if size = 36 then groupFault true size 0 core
  else
    match insideBraces? core, afterUrn? core with
    | some inside, _ => groupFault true size 1 inside
    | none, some rest => groupFault true size 9 rest
    | none, none => groupFault false size 0 core

def read (s : String) : Except Fault RecordId :=
  let cs := Text.trim s.toList
  match ofChars? cs with
  | some id => .ok id
  | none => .error (fault cs)

/-- The order of ids: the first octet that differs decides. -/
def le (a b : RecordId) : Bool := go a.octets b.octets
where
  go : List UInt8 → List UInt8 → Bool
    | [], _ => true
    | _ :: _, [] => false
    | x :: xs, y :: ys => x < y || (x == y && go xs ys)

def describe (id : RecordId) : String := "RecordId(" ++ id.text ++ ")"

end RecordId
end RecordLedger
