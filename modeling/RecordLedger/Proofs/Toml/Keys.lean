import Mathlib.Data.List.TakeDrop
import RecordLedger.Toml.Reader

/-! Readers of TOML, step by step: blanks, rounds of a repeated step, and keys without quotes. -/
namespace RecordLedger.Toml.Reader

variable {α β : Type} {cs ds es : List Char}

/-- The second reader goes on where the first one ends. -/
theorem bind_run {x : Reader α} {f : α → Reader β} {a : α} (first : x cs = some (a, ds)) :
    (x >>= f) cs = f a ds := by
  change (x cs).bind (fun p => f p.1 p.2) = f a ds
  rw [first]
  rfl

theorem get_bind (f : List Char → Reader β) (cs : List Char) : (get >>= f) cs = f cs cs := rfl

theorem peek_run (cs : List Char) : peek cs = some (cs.head?, cs) := rfl

theorem accept_cons (c : Char) (cs : List Char) : accept c (c :: cs) = some (true, cs) := by
  change (if (some c = some c) then _ else _ : Reader Bool) (c :: cs) = _
  rw [if_pos rfl]
  rfl

theorem accept_other {c : Char} (other : cs.head? ≠ some c) : accept c cs = some (false, cs) := by
  change (if (cs.head? = some c) then _ else _ : Reader Bool) cs = _
  rw [if_neg other]
  rfl

theorem expect_cons (c : Char) (cs : List Char) : expect c (c :: cs) = some ((), cs) := by
  rw [expect, bind_run (accept_cons c cs)]
  rfl

def Full (cs : List Char) : Prop :=
  ∀ c ∈ cs.head?, Quoted.isSpace c = false ∧ c ≠ '#' ∧ c ≠ '\n' ∧ c ≠ '\r'

theorem skipSpaces_run (cs : List Char) :
    skipSpaces cs = some ((), cs.dropWhile Quoted.isSpace) := rfl

theorem skipSpaces_full (full : ∀ c ∈ cs.head?, Quoted.isSpace c = false) :
    skipSpaces cs = some ((), cs) := by
  have same : cs.dropWhile Quoted.isSpace = cs := by
    cases cs with
    | nil => rfl
    | cons c cs => exact List.dropWhile_cons_of_neg (by simp [full c rfl])
  rw [skipSpaces_run, same]

theorem skipSpaces_space (full : ∀ c ∈ cs.head?, Quoted.isSpace c = false) :
    skipSpaces (' ' :: cs) = some ((), cs) :=
  skipSpaces_full full

theorem skipLines_full (full : Full cs) (fuel : Nat) : skipLines fuel cs = some ((), cs) := by
  cases fuel with
  | zero => rfl
  | succ fuel =>
    have comment : skipComment cs = some ((), cs) := by
      rw [skipComment, bind_run (accept_other fun mark => (full '#' mark).2.1 rfl)]
      rfl
    have line : Quoted.newline? cs = none := by
      cases cs with
      | nil => rfl
      | cons c cs =>
        obtain ⟨-, -, noFeed, noReturn⟩ := full c rfl
        unfold Quoted.newline?
        split
        · next same => exact absurd (List.cons.inj same).1 noFeed
        · next same => exact absurd (List.cons.inj same).1 noReturn
        · rfl
    rw [skipLines, bind_run (skipSpaces_full fun c head => (full c head).1), bind_run comment,
      get_bind, line]
    rfl

theorem skipLines_newline (fuel : Nat) (cs : List Char) :
    skipLines (fuel + 1) ('\n' :: cs) = skipLines fuel cs := rfl

theorem restOfLine_newline (cs : List Char) : restOfLine ('\n' :: cs) = some ((), cs) := rfl

/-- So many rounds of a step lead from one value and text to another. -/
inductive Rounds (step : α → Reader (Option α)) : Nat → α → List Char → α → List Char → Prop
  | stay (a : α) (cs : List Char) : Rounds step 0 a cs a cs
  | go {n : Nat} {a b c : α} {cs ds es : List Char} (first : step a cs = some (some b, ds))
      (others : Rounds step n b ds c es) : Rounds step (n + 1) a cs c es

variable {step : α → Reader (Option α)} {n m : Nat} {a b c : α}

theorem Rounds.append (front : Rounds step n a cs b ds) (back : Rounds step m b ds c es) :
    Rounds step (n + m) a cs c es := by
  induction front with
  | stay => rwa [Nat.zero_add]
  | go first _ ih =>
    rw [Nat.succ_add]
    exact .go first (ih back)

theorem Rounds.repeatOn (rounds : Rounds step n a cs b ds) (stop : step b ds = some (none, es))
    {fuel : Nat} (enough : n < fuel) : repeatOn step fuel a cs = some (b, es) := by
  obtain ⟨fuel, rfl⟩ := Nat.exists_eq_add_one.mpr (Nat.zero_lt_of_lt enough)
  induction rounds generalizing fuel with
  | stay =>
    rw [Reader.repeatOn, bind_run stop]
    rfl
  | go first _ ih =>
    rw [Reader.repeatOn, bind_run first]
    have left := Nat.lt_of_succ_lt_succ enough
    obtain ⟨fuel, rfl⟩ := Nat.exists_eq_add_one.mpr (Nat.zero_lt_of_lt left)
    exact ih stop _ left

theorem Rounds.exhaust (rounds : Rounds step n a cs b ds) (stop : step b ds = some (none, es))
    (enough : n ≤ cs.length) : exhaust step a cs = some (b, es) := by
  rw [Reader.exhaust, get_bind]
  exact rounds.repeatOn stop (by omega)

structure Bare (key : String) : Prop where
  filled : key.toList ≠ []
  chars : ∀ c ∈ key.toList, isBareKeyChar c = true

theorem Bare.head {key : String} (bare : Bare key) :
    ∃ c rest, key.toList = c :: rest ∧ isBareKeyChar c = true := by
  obtain ⟨c, rest, shape⟩ := List.exists_cons_of_ne_nil bare.filled
  exact ⟨c, rest, shape, bare.chars c (shape ▸ List.mem_cons_self)⟩

theorem bareKeyChar_plain {c : Char} (bare : isBareKeyChar c = true) :
    Quoted.isSpace c = false ∧ c ≠ '#' ∧ c ≠ '\n' ∧ c ≠ '\r' ∧ c ≠ '"' ∧ c ≠ '\'' ∧ c ≠ '[' := by
  have differs (d : Char) (other : isBareKeyChar d = false) : c ≠ d := by
    rintro rfl
    exact absurd bare (by simp [other])
  refine ⟨?_, differs _ rfl, differs _ rfl, differs _ rfl, differs _ rfl, differs _ rfl,
    differs _ rfl⟩
  have blank := differs ' ' rfl
  have tab := differs '\t' rfl
  simp [Quoted.isSpace, blank, tab]

theorem Bare.full {key : String} (bare : Bare key) (cs : List Char) : Full (key.toList ++ cs) := by
  obtain ⟨c, rest, shape, first⟩ := bare.head
  obtain ⟨space, comment, feed, ret, -⟩ := bareKeyChar_plain first
  rw [shape]
  rintro d ⟨⟩
  exact ⟨space, comment, feed, ret⟩

theorem Bare.simpleKey {key : String} (bare : Bare key)
    (ends : ∀ c ∈ cs.head?, isBareKeyChar c = false) :
    simpleKey (key.toList ++ cs) = some (key, cs) := by
  have unquoted : Quoted.readLine (key.toList ++ cs) = none := by
    obtain ⟨c, rest, shape, first⟩ := bare.head
    obtain ⟨-, -, -, -, double, single, -⟩ := bareKeyChar_plain first
    rw [shape]
    unfold Quoted.readLine
    split
    · next same => exact absurd (List.cons.inj same).1 double
    · next same => exact absurd (List.cons.inj same).1 single
    · rfl
  have taken : (key.toList ++ cs).span isBareKeyChar = (key.toList, cs) := by
    have stop : cs.takeWhile isBareKeyChar = [] ∧ cs.dropWhile isBareKeyChar = cs := by
      cases cs with
      | nil => exact ⟨rfl, rfl⟩
      | cons c cs => simp [ends c rfl]
    rw [List.span_eq_takeWhile_dropWhile, List.takeWhile_append_of_pos bare.chars,
      List.dropWhile_append_of_pos bare.chars, stop.1, stop.2, List.append_nil]
  rw [Reader.simpleKey, get_bind, unquoted, taken]
  obtain ⟨c, rest, shape, -⟩ := bare.head
  have whole : key = String.ofList (c :: rest) := by rw [← shape, String.ofList_toList]
  rw [shape, whole]
  rfl

/-- A key without dots behind it stands alone. -/
theorem Bare.key {key : String} (bare : Bare key) (cs : List Char)
    (ends : ∀ c ∈ cs.head?, isBareKeyChar c = false)
    (last : (cs.dropWhile Quoted.isSpace).head? ≠ some '.') :
    Reader.key (key.toList ++ cs) = some (([], key), cs) := by
  rw [Reader.key, bind_run (bare.simpleKey ends)]
  refine (Rounds.stay _ _).exhaust ?_ (Nat.zero_le _)
  dsimp only
  rw [get_bind, bind_run (skipSpaces_run cs), bind_run (accept_other last)]
  rfl

end RecordLedger.Toml.Reader
