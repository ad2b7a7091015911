import Mathlib.Data.List.TakeDrop
import RecordLedger.Command.Invocation
import RecordLedger.Command.Output
import RecordLedger.Proofs.Instant

/-! Command lines that restore a version or fetch a page, read as what they say. A tag may look like
options; behind two hyphens it is an operand all the same. -/
namespace RecordLedger.Command

def Plain (text : String) : Prop := ∀ c rest, text.toList ≠ '-' :: c :: rest

namespace Reading

variable {level : Level} {r r' : Reading} {a : Argument} {text value : String} {rest : List String}

theorem argument_operand (plain : Plain text) (settled : r.isWaiting = false) :
    r.argument level text = r.operand level text := by
  unfold argument
  split
  · rfl
  · split
    · next shape => exact absurd shape (plain _ _)
    · next shape => exact absurd shape (plain _ _)
    · next shape => exact absurd shape (plain _ _)
    · split
      · next waiting =>
        rw [isWaiting, waiting] at settled
        cases settled
      · rfl

theorem argument_value (plain : Plain text) (before : r.operandsOnly = false)
    (waiting : r.pending = some ⟨a, none⟩) :
    r.argument level text = .ok { r with pending := some ⟨a, some text⟩ } := by
  rw [argument, before, waiting, if_neg Bool.false_ne_true]
  split
  · next shape => exact absurd shape (plain _ _)
  · next shape => exact absurd shape (plain _ _)
  · next shape => exact absurd shape (plain _ _)
  · rfl

theorem argument_behind (behind : r.operandsOnly = true) :
    r.argument level text = r.operand level text := by
  rw [argument, if_pos behind]

/-- Behind two hyphens everything is an operand. -/
theorem argument_guard (before : r.operandsOnly = false) :
    r.argument level "--" = .ok { r with operandsOnly := true } := by
  rw [argument, before]
  rfl

/-- An option in its long form, without a value attached, settles the argument before it. -/
theorem argument_option {name : String} (before : r.operandsOnly = false)
    (spelled : text.toList = '-' :: '-' :: name.toList)
    (whole : name.toList.span (· != '=') = (name.toList, []))
    (known : level.options.find? (·.name = name) = some a) (valued : a.use = .valued false)
    (named : name ≠ "") (settled : r.settle = .ok r') :
    r.argument level text = .ok { r' with pending := some ⟨a, none⟩ } := by
  have some_char : name.toList ≠ [] := fun none_left => named (String.toList_inj.mp none_left)
  obtain ⟨c, cs, shape⟩ := List.exists_cons_of_ne_nil some_char
  rw [argument, before, if_neg Bool.false_ne_true, spelled, shape]
  change r.long level (c :: cs) = _
  rw [← shape, long, whole]
  dsimp only
  rw [String.ofList_toList, known]
  simp [begin, valued, settled, bind, Except.bind, pure, Except.pure]

/-- An option with its value attached is accepted at once. -/
theorem argument_attached {name : String} {values : Values} {n : Nat}
    (spelled : text.toList = '-' :: '-' :: (name.toList ++ '=' :: value.toList))
    (whole : ∀ c ∈ name.toList, (c != '=') = true)
    (known : level.options.find? (·.name = name) = some a) (valued : a.use = .valued false)
    (named : name ≠ "") (new : (Values.find? values a.name).isSome = false)
    (passed : a.check value = none) :
    argument level ⟨values, none, n, false⟩ text =
      .ok ⟨values ++ [(a.name, value)], none, n, false⟩ := by
  have some_char : name.toList ≠ [] := fun none_left => named (String.toList_inj.mp none_left)
  obtain ⟨c, cs, shape⟩ := List.exists_cons_of_ne_nil some_char
  have cut : (name.toList ++ '=' :: value.toList).span (· != '=') =
      (name.toList, '=' :: value.toList) := by
    rw [List.span_eq_takeWhile_dropWhile, List.takeWhile_append_of_pos whole,
      List.dropWhile_append_of_pos whole]
    simp
  rw [argument, if_neg Bool.false_ne_true, spelled, shape]
  change long level _ (c :: cs ++ '=' :: value.toList) = _
  rw [← shape, long, cut]
  dsimp only
  rw [String.ofList_toList, known]
  simp [begin, valued, settle, accept, new, passed, bind, Except.bind]

theorem settle_value {values : Values} {position : Nat} {only : Bool}
    (new : (Values.find? values a.name).isSome = false) (passed : a.check value = none) :
    settle ⟨values, some ⟨a, some value⟩, position, only⟩ =
      .ok ⟨values ++ [(a.name, value)], none, position, only⟩ := by
  simp [settle, accept, new, passed]

theorem operand_next (next : level.operands[r.position]? = some a) (settled : r.settle = .ok r') :
    r.operand level text =
      .ok { r' with pending := some ⟨a, some text⟩, position := r.position + 1 } := by
  rw [operand, next]
  dsimp only
  rw [settled]
  rfl

end Reading

namespace Level

variable {level : Level} {a : Argument} {text value : String} {rest : List String}
  {values settled : Values} {pending : Option Pending} {position : Nat} {only : Bool}

theorem read_step {r r' : Reading} (other : level.commands.contains text = false)
    (met : r.argument level text = .ok r') : level.read r (text :: rest) = level.read r' rest := by
  rw [Level.read, if_neg (by simp [-List.contains_eq_mem, other]), met]
  rfl

theorem read_guard (bare : level.commands = []) :
    level.read ⟨values, pending, position, false⟩ ("--" :: rest) =
      level.read ⟨values, pending, position, true⟩ rest :=
  read_step (by rw [bare]; rfl) (Reading.argument_guard rfl)

/-- An option and the value behind it settle what was before them. -/
theorem read_option {name : String} (bare : level.commands = [])
    (spelled : text.toList = '-' :: '-' :: name.toList)
    (whole : name.toList.span (· != '=') = (name.toList, []))
    (known : level.options.find? (·.name = name) = some a) (valued : a.use = .valued false)
    (named : name ≠ "") (plain : Plain value)
    (settles : Reading.settle ⟨values, pending, position, false⟩ =
      .ok ⟨settled, none, position, false⟩) :
    level.read ⟨values, pending, position, false⟩ (text :: value :: rest) =
      level.read ⟨settled, some ⟨a, some value⟩, position, false⟩ rest := by
  have begun := Reading.argument_option rfl spelled whole known valued named settles
  have filled : Reading.argument level ⟨settled, some ⟨a, none⟩, position, false⟩ value =
      .ok ⟨settled, some ⟨a, some value⟩, position, false⟩ := Reading.argument_value plain rfl rfl
  rw [read_step (by rw [bare]; rfl) begun, read_step (by rw [bare]; rfl) filled]

theorem read_operand (bare : level.commands = [])
    (free : only = true ∨ Plain text ∧ Reading.isWaiting ⟨values, pending, position, only⟩ = false)
    (next : level.operands[position]? = some a)
    (settles : Reading.settle ⟨values, pending, position, only⟩ =
      .ok ⟨settled, none, position, only⟩) :
    level.read ⟨values, pending, position, only⟩ (text :: rest) =
      level.read ⟨settled, some ⟨a, some text⟩, position + 1, only⟩ rest := by
  have taken : Reading.operand level ⟨values, pending, position, only⟩ text =
      .ok ⟨settled, some ⟨a, some text⟩, position + 1, only⟩ := Reading.operand_next next settles
  rcases free with behind | ⟨plain, still⟩
  · exact read_step (by rw [bare]; rfl) ((Reading.argument_behind behind).trans taken)
  · exact read_step (by rw [bare]; rfl) ((Reading.argument_operand plain still).trans taken)

end Level

theorem tag?_text (tag : Tag) : tag? tag.text = some tag := by rw [tag?, Tag.parse_text]; rfl

theorem id?_text (id : RecordId) : id? id.text = some id := by rw [id?, RecordId.parse_text]; rfl

theorem instant?_text {t : Instant} (years : Instant.FourDigit t.micros) :
    instant? t.text = some t := by
  rw [instant?, Instant.parse_text years]
  rfl

theorem cursor?_token (c : Cursor) : cursor? c.token = some c := by
  rw [cursor?, Cursor.parse_token]
  rfl

theorem checkBy_of_some {α : Type} {f : String → Option α} {text : String} {x : α}
    (read : f text = some x) : checkBy f text = none := by
  rw [checkBy, read]
  rfl

theorem digit_plain {d : Nat} (small : d < 10) : Text.Numeral.digitChar d ≠ '-' := by
  have all : ∀ d ∈ List.range 10, Text.Numeral.digitChar d ≠ '-' := by decide
  exact all d (List.mem_range.mpr small)

theorem plain_of_head {c : Char} {cs : List Char} {text : String} (shape : text.toList = c :: cs)
    (other : c ≠ '-') : Plain text := by
  intro _ _ same
  rw [shape] at same
  exact other (List.cons.inj same).1

theorem plain_instant {t : Instant} (years : Instant.FourDigit t.micros) : Plain t.text := by
  obtain ⟨d, ds, rest, shape, small, _⟩ := Instant.calendarText_ends years
  have text : t.text.toList =
      Text.Numeral.digitChar d :: (ds.map Text.Numeral.digitChar ++ '-' :: rest) := by
    rw [Instant.text, Instant.dated_of_fourDigit years, String.toList_ofList, shape]
  exact plain_of_head text (digit_plain (small d List.mem_cons_self))

theorem hex_plain {n : Nat} (small : n < 16) : Text.Hex.digitChar n ≠ '-' := by
  have all : ∀ n ∈ List.range 16, Text.Hex.digitChar n ≠ '-' := by decide
  exact all n (List.mem_range.mpr small)

theorem plain_id (id : RecordId) : Plain id.text := by
  obtain ⟨first, rest, _, shape, _, digit, _⟩ := id.chars_ends
  obtain ⟨n, small, rfl⟩ := Text.Hex.encode_digits _ _ digit
  exact plain_of_head ((String.toList_ofList ..).trans shape) (hex_plain small)

theorem plain_token (c : Cursor) : Plain c.token := by
  intro d rest same
  rw [Cursor.token, String.toList_ofList] at same
  have first : '-' ∈ Text.Hex.encode (Cursor.mark ++ c.id.text).toUTF8.toList := by
    rw [same]
    exact List.mem_cons_self
  obtain ⟨n, small, shape⟩ := Text.Hex.encode_digits _ _ first
  exact hex_plain small shape.symm

theorem number_head (n : Nat) : ∃ d cs, d < 10 ∧
    Text.Numeral.ofNat n = Text.Numeral.digitChar d :: cs := by
  obtain ⟨d, ds, shape⟩ := List.exists_cons_of_ne_nil (Text.Numeral.digits_leading n).ne_nil
  have small := Text.Numeral.digits_small n
  rw [shape] at small
  exact ⟨d, _, small d List.mem_cons_self, by rw [Text.Numeral.ofNat, shape]; rfl⟩

theorem plain_number (n : Nat) : Plain (number n) := by
  obtain ⟨d, cs, small, shape⟩ := number_head n
  exact plain_of_head ((String.toList_ofList ..).trans shape) (digit_plain small)

theorem count?_number {n : Nat} (fits : n ≤ Word.maxUnsigned) : count? (number n) = some n := by
  obtain ⟨d, cs, small, shape⟩ := number_head n
  have all : ∀ d ∈ List.range 10, Text.Numeral.digitChar d ≠ '+' := by decide
  have unsigned := all d (List.mem_range.mpr small)
  have taken : Text.Numeral.takeDigits (Text.Numeral.ofNat n ++ []) =
      (Text.Numeral.digits n, []) := Text.Numeral.takeDigits_ofNat nofun
  rw [List.append_nil] at taken
  have value := Text.Numeral.value_digits n
  have read : Text.Numeral.nat? (Text.Numeral.ofNat n) = some n := by
    obtain ⟨e, es, digits⟩ := List.exists_cons_of_ne_nil (Text.Numeral.digits_leading n).ne_nil
    rw [digits] at taken value
    rw [Text.Numeral.nat?, taken]
    exact congrArg some value
  have chars : (number n).toList = Text.Numeral.digitChar d :: cs := by
    rw [number, String.toList_ofList, shape]
  unfold count?
  dsimp only
  split
  · next signed =>
    rw [chars] at signed
    exact absurd (List.cons.inj signed).1 unsigned
  · rw [chars, ← shape, read]
    simp [fits]

def Chooses (front : List String) (database : Option String) (settings : String) : Prop :=
  ∃ values : Values,
    (∀ rest, topLevel.read .start (front ++ rest) = topLevel.read ⟨values, none, 0, false⟩ rest) ∧
    values.find? "db" = database ∧ (values.find? "config").getD "vrl.toml" = settings

/-- The arguments behind the name of a command ask for what it is to do, and for nothing else. -/
def Asks (name : String) (rest : List String) (c : Command) : Prop :=
  ∃ r r' values, (levelOf name).read .start rest = .ok (r, none) ∧ r.settle = .ok r' ∧
    r'.complete (levelOf name) = .ok values ∧ ofValues? name values = some c ∧
    values.find? "format" = none ∧ values.find? "db" = none ∧ values.find? "config" = none

theorem ofArguments_of_asks {front rest : List String} {database : Option String}
    {settings name : String} {c : Command} (chooses : Chooses front database settings)
    (known : name ∈ names) (asks : Asks name rest c) :
    ∃ format,
      Invocation.ofArguments (front ++ name :: rest) = .ok ⟨c, format, database, settings⟩ := by
  obtain ⟨outer, read, rfl, rfl⟩ := chooses
  obtain ⟨r, r', values, inner, settled, complete, command, format, database, config⟩ := asks
  have named : topLevel.read ⟨outer, none, 0, false⟩ (name :: rest) =
      .ok (⟨outer, none, 0, false⟩, some (name, rest)) := by
    have listed : name ∈ topLevel.commands := List.mem_cons_of_mem _ known
    rw [Level.read, if_pos]
    simp [Reading.isWaiting, listed]
  have other : name ≠ "help" := by
    rintro rfl
    revert known
    decide
  have outer_settled : Reading.settle ⟨outer, none, 0, false⟩ = .ok ⟨outer, none, 0, false⟩ := rfl
  refine ⟨((outer.find? "format").bind Format.ofName?).getD .text, ?_⟩
  rw [Invocation.ofArguments, read, named]
  simp only [bind, Except.bind, other, if_false, inner, settled, complete, outer_settled, command,
    sharedValue, format, database, config, Option.orElse, pure, Except.pure]

def attached (name value : String) : String := "--" ++ name ++ "=" ++ value

def chosen (database : Option String) (settings : String) : List String :=
  (database.map (attached "db")).toList ++ [attached "config" settings]

/-- No command has a name with a hyphen in front. -/
theorem commands_apart {text : String} {cs : List Char} (spelled : text.toList = '-' :: cs) :
    topLevel.commands.contains text = false := by
  have all : ∀ name ∈ topLevel.commands, name.toList.head? ≠ some '-' := by decide
  rw [← Bool.not_eq_true, List.contains_iff_mem]
  intro listed
  refine all text listed ?_
  rw [spelled]
  rfl

theorem read_attached (name : String) {value : String} (values : Values) (rest : List String)
    (whole : ∀ c ∈ name.toList, (c != '=') = true) (named : name ≠ "")
    (known : topLevel.options.find? (·.name = name) = some (option name checkPath))
    (new : (values.find? name).isSome = false) (filled : value ≠ "") :
    topLevel.read ⟨values, none, 0, false⟩ (attached name value :: rest) =
      topLevel.read ⟨values ++ [(name, value)], none, 0, false⟩ rest := by
  have spelled : (attached name value).toList =
      '-' :: '-' :: (name.toList ++ '=' :: value.toList) := by
    simp [attached, String.toList_append]
  have passed : (option name checkPath).check value = none := by
    change checkPath value = none
    simp [checkPath, filled]
  exact Level.read_step (commands_apart spelled)
    (Reading.argument_attached spelled whole known rfl named new passed)

/-- Every file and every settings file that has a name can be chosen. -/
theorem chooses_chosen {database : Option String} {settings : String} (path : database ≠ some "")
    (filled : settings ≠ "") : Chooses (chosen database settings) database settings := by
  cases database with
  | none =>
    refine ⟨[("config", settings)], fun rest => ?_, rfl, rfl⟩
    exact read_attached "config" [] rest (by simp) (by decide) rfl rfl filled
  | some file =>
    refine ⟨[("db", file), ("config", settings)], fun rest => ?_, rfl, rfl⟩
    have db := read_attached "db" [] (attached "config" settings :: rest) (by simp) (by decide)
      rfl rfl fun same => path (congrArg some same)
    exact db.trans (read_attached "config" _ rest (by simp) (by decide) rfl rfl filled)

/-- Without options the store is the one that the usual settings file names. -/
example : Chooses [] none "vrl.toml" := ⟨[], fun _ => rfl, rfl, rfl⟩

def atOption : Argument := { option "at" (checkBy instant?) with required := true }

theorem atOption_check : atOption.check = checkBy instant? := rfl

theorem read_at {values settled : Values} {pending : Option Pending} {position : Nat}
    {value : String} {rest : List String} (plain : Plain value)
    (settles : Reading.settle ⟨values, pending, position, false⟩ =
      .ok ⟨settled, none, position, false⟩) :
    (levelOf "restore").read ⟨values, pending, position, false⟩ ("--at" :: value :: rest) =
      (levelOf "restore").read ⟨settled, some ⟨atOption, some value⟩, position, false⟩ rest :=
  Level.read_option rfl (show "--at".toList = '-' :: '-' :: "at".toList from rfl) rfl rfl rfl
    (by decide) plain settles

section Restoring

variable {tag id at_ : String} {t : Tag} {i : RecordId} {m : Instant}

inductive Restores (tag id at_ : String) : List String → Prop
  | plain (plain : Plain tag) : Restores tag id at_ ["restore", tag, id, "--at", at_]
  | guarded : Restores tag id at_ ["restore", "--at", at_, "--", tag, id]

theorem ofValues?_restore {values : Values} (tagged : values.find? "data_type" = some t.text)
    (named : values.find? "id" = some i.text) (dated : values.find? "at" = some m.text)
    (years : Instant.FourDigit m.micros) :
    ofValues? "restore" values = some (.restore t i m) := by
  simp [ofValues?, tagged, named, dated, tag?_text, id?_text, instant?_text years]

theorem asks_restore {args : List String} (line : Restores t.text i.text m.text args)
    (years : Instant.FourDigit m.micros) :
    ∃ rest, args = "restore" :: rest ∧ Asks "restore" rest (.restore t i m) := by
  have tagged : tagOperand.check t.text = none := checkBy_of_some (tag?_text t)
  have named : idOperand.check i.text = none := checkBy_of_some (id?_text i)
  have dated : atOption.check m.text = none := by
    rw [atOption_check]
    exact checkBy_of_some (instant?_text years)
  let level := levelOf "restore"
  cases line with
  | plain plain =>
    let one : Values := [("data_type", t.text)]
    let both : Values := [("data_type", t.text), ("id", i.text)]
    let all : Values := [("data_type", t.text), ("id", i.text), ("at", m.text)]
    refine ⟨_, rfl, ⟨both, some ⟨atOption, some m.text⟩, 2, false⟩, ⟨all, none, 2, false⟩, all, ?_,
      Reading.settle_value rfl dated, rfl, ofValues?_restore rfl rfl rfl years, rfl, rfl, rfl⟩
    calc level.read .start [t.text, i.text, "--at", m.text]
        = level.read ⟨[], some ⟨tagOperand, some t.text⟩, 1, false⟩ [i.text, "--at", m.text] :=
          Level.read_operand rfl (.inr ⟨plain, rfl⟩) rfl rfl
      _ = level.read ⟨one, some ⟨idOperand, some i.text⟩, 2, false⟩ ["--at", m.text] :=
          Level.read_operand rfl (.inr ⟨plain_id i, rfl⟩) rfl (Reading.settle_value rfl tagged)
      _ = level.read ⟨both, some ⟨atOption, some m.text⟩, 2, false⟩ [] :=
          read_at (plain_instant years) (Reading.settle_value rfl named)
      _ = .ok (⟨both, some ⟨atOption, some m.text⟩, 2, false⟩, none) := rfl
  | guarded =>
    let one : Values := [("at", m.text)]
    let both : Values := [("at", m.text), ("data_type", t.text)]
    let all : Values := [("at", m.text), ("data_type", t.text), ("id", i.text)]
    refine ⟨_, rfl, ⟨both, some ⟨idOperand, some i.text⟩, 2, true⟩, ⟨all, none, 2, true⟩, all, ?_,
      Reading.settle_value rfl named, rfl, ofValues?_restore rfl rfl rfl years, rfl, rfl, rfl⟩
    calc level.read .start ["--at", m.text, "--", t.text, i.text]
        = level.read ⟨[], some ⟨atOption, some m.text⟩, 0, false⟩ ["--", t.text, i.text] :=
          read_at (plain_instant years) rfl
      _ = level.read ⟨[], some ⟨atOption, some m.text⟩, 0, true⟩ [t.text, i.text] :=
          Level.read_guard rfl
      _ = level.read ⟨one, some ⟨tagOperand, some t.text⟩, 1, true⟩ [i.text] :=
          Level.read_operand rfl (.inl rfl) rfl (Reading.settle_value rfl dated)
      _ = level.read ⟨both, some ⟨idOperand, some i.text⟩, 2, true⟩ [] :=
          Level.read_operand rfl (.inl rfl) rfl (Reading.settle_value rfl tagged)
      _ = .ok (⟨both, some ⟨idOperand, some i.text⟩, 2, true⟩, none) := rfl

end Restoring

def firstOption : Argument := { option "first" (checkBy count?) with short := some 'n' }

def beforeOption : Argument := option "before" (checkBy cursor?)

theorem read_first {values settled : Values} {pending : Option Pending} {position : Nat}
    {value : String} {rest : List String} (plain : Plain value)
    (settles : Reading.settle ⟨values, pending, position, false⟩ =
      .ok ⟨settled, none, position, false⟩) :
    (levelOf "fetch").read ⟨values, pending, position, false⟩ ("--first" :: value :: rest) =
      (levelOf "fetch").read ⟨settled, some ⟨firstOption, some value⟩, position, false⟩ rest :=
  Level.read_option rfl (show "--first".toList = '-' :: '-' :: "first".toList from rfl) rfl rfl rfl
    (by decide) plain settles

theorem read_before {values settled : Values} {pending : Option Pending} {position : Nat}
    {value : String} {rest : List String} (plain : Plain value)
    (settles : Reading.settle ⟨values, pending, position, false⟩ =
      .ok ⟨settled, none, position, false⟩) :
    (levelOf "fetch").read ⟨values, pending, position, false⟩ ("--before" :: value :: rest) =
      (levelOf "fetch").read ⟨settled, some ⟨beforeOption, some value⟩, position, false⟩ rest :=
  Level.read_option rfl (show "--before".toList = '-' :: '-' :: "before".toList from rfl) rfl rfl
    rfl (by decide) plain settles

section Fetching

variable {t : Tag} {c : Cursor} {n : Nat}

inductive Fetches (tag cursor number : String) : List String → Prop
  | plain (plain : Plain tag) :
      Fetches tag cursor number ["fetch", tag, "--before", cursor, "--first", number]
  | guarded : Fetches tag cursor number
      ["fetch", "--before", cursor, "--first", number, "--", tag]

theorem ofValues?_fetch {values : Values} (tagged : values.find? "data_type" = some t.text)
    (anchored : values.find? "before" = some c.token)
    (sized : values.find? "first" = some (number n)) (fits : n ≤ Word.maxUnsigned) :
    ofValues? "fetch" values = some (.fetch t (some n) (some c)) := by
  simp [ofValues?, tagged, anchored, sized, tag?_text, cursor?_token, count?_number fits]

theorem asks_fetch {args : List String} (line : Fetches t.text c.token (number n) args)
    (fits : n ≤ Word.maxUnsigned) :
    ∃ rest, args = "fetch" :: rest ∧ Asks "fetch" rest (.fetch t (some n) (some c)) := by
  have tagged : tagOperand.check t.text = none := checkBy_of_some (tag?_text t)
  have anchored : beforeOption.check c.token = none := checkBy_of_some (cursor?_token c)
  have sized : firstOption.check (number n) = none := checkBy_of_some (count?_number fits)
  let level := levelOf "fetch"
  cases line with
  | plain plain =>
    let one : Values := [("data_type", t.text)]
    let both : Values := [("data_type", t.text), ("before", c.token)]
    let all : Values := [("data_type", t.text), ("before", c.token), ("first", number n)]
    refine ⟨_, rfl, ⟨both, some ⟨firstOption, some (number n)⟩, 1, false⟩, ⟨all, none, 1, false⟩,
      all, ?_, Reading.settle_value rfl sized, rfl, ofValues?_fetch rfl rfl rfl fits, rfl, rfl, rfl⟩
    calc level.read .start [t.text, "--before", c.token, "--first", number n]
        = level.read ⟨[], some ⟨tagOperand, some t.text⟩, 1, false⟩
            ["--before", c.token, "--first", number n] :=
          Level.read_operand rfl (.inr ⟨plain, rfl⟩) rfl rfl
      _ = level.read ⟨one, some ⟨beforeOption, some c.token⟩, 1, false⟩ ["--first", number n] :=
          read_before (plain_token c) (Reading.settle_value rfl tagged)
      _ = level.read ⟨both, some ⟨firstOption, some (number n)⟩, 1, false⟩ [] :=
          read_first (plain_number n) (Reading.settle_value rfl anchored)
      _ = .ok (⟨both, some ⟨firstOption, some (number n)⟩, 1, false⟩, none) := rfl
  | guarded =>
    let one : Values := [("before", c.token)]
    let both : Values := [("before", c.token), ("first", number n)]
    let all : Values := [("before", c.token), ("first", number n), ("data_type", t.text)]
    refine ⟨_, rfl, ⟨both, some ⟨tagOperand, some t.text⟩, 1, true⟩, ⟨all, none, 1, true⟩, all, ?_,
      Reading.settle_value rfl tagged, rfl, ofValues?_fetch rfl rfl rfl fits, rfl, rfl, rfl⟩
    calc level.read .start ["--before", c.token, "--first", number n, "--", t.text]
        = level.read ⟨[], some ⟨beforeOption, some c.token⟩, 0, false⟩
            ["--first", number n, "--", t.text] := read_before (plain_token c) rfl
      _ = level.read ⟨one, some ⟨firstOption, some (number n)⟩, 0, false⟩ ["--", t.text] :=
          read_first (plain_number n) (Reading.settle_value rfl anchored)
      _ = level.read ⟨one, some ⟨firstOption, some (number n)⟩, 0, true⟩ [t.text] :=
          Level.read_guard rfl
      _ = level.read ⟨both, some ⟨tagOperand, some t.text⟩, 1, true⟩ [] :=
          Level.read_operand rfl (.inl rfl) rfl (Reading.settle_value rfl sized)
      _ = .ok (⟨both, some ⟨tagOperand, some t.text⟩, 1, true⟩, none) := rfl

end Fetching

end RecordLedger.Command
