import RecordLedger.Proofs.Command.Files
import RecordLedger.Proofs.Settings

/-! Setting up a directory: the file of the settings is kept unless it is to be written anew, and
what is written anew stands for the same settings. Only a file that is empty can be lost, and only
to the store that is opened in its place. -/
namespace RecordLedger

namespace Directory

variable {d d' : Directory} {path other : String}

theorem file?_congr (d : Directory) (same : resolve? other = resolve? path) :
    d.file? other = d.file? path := by
  rw [file?, file?, same]

/-- The files that the engine keeps beside a store while it is open. -/
def besides (path : String) : List String := ["-journal", "-wal", "-shm"].map (path ++ ·)

/-- Two files of the directory, by paths and no addresses, the first one for a store. The second one
is none that the engine keeps beside the first, for these come and go as the store is opened. -/
structure Separate (path other : String) : Prop where
  plain : (resolve? path).isSome = true ∧ ¬ "file:".toList <+: path.toList
  inside : (resolve? other).isSome = true
  apart : ∀ beside ∈ besides path, resolve? other ≠ resolve? beside

theorem openStore?_others {s : Store} (opened : d.openStore? path = some (s, d'))
    (apart : resolve? other ≠ resolve? path) : d'.file? other = d.file? other := by
  have made (put : d.put? path (.store .empty) = some d') : d'.file? other = d.file? other := by
    rw [file?_put put, if_neg apart]
  unfold openStore? at opened
  split at opened
  · cases opened
    rfl
  · split at opened
    · obtain ⟨_, put, same⟩ := Option.map_eq_some_iff.mp opened
      cases same
      exact made put
    · cases opened
  · obtain ⟨_, put, same⟩ := Option.map_eq_some_iff.mp opened
    cases same
    exact made put

/-- A store is opened in the place of a text only if the text is empty. -/
theorem openStore?_text {s : Store} {text : String} (found : d.file? path = some (.text text))
    (opened : d.openStore? path = some (s, d')) :
    text = "" ∧ s = .empty ∧ d'.Replaceable path := by
  rw [openStore?, found] at opened
  dsimp only at opened
  split at opened
  · next nothing =>
    obtain ⟨_, put, same⟩ := Option.map_eq_some_iff.mp opened
    cases same
    exact ⟨String.isEmpty_iff.mp nothing, rfl, replaceable_put put⟩
  · cases opened

end Directory

namespace Command

variable {d : Directory} {α : Type} {path text : String}

/-- Work on a store leaves every text, except an empty one in the place of the store. -/
theorem onStore_text (found : d.file? path = some (.text text)) (settings : StoreSettings)
    (refusal : String) (work : Action α) :
    (onStore settings refusal work d).2.file? path = some (.text text) ∨
      (text = "" ∧ (∃ own, settings.path = some own ∧
        Directory.resolve? own = Directory.resolve? path) ∧
        (onStore settings refusal work d).2.file? path =
          some (.store (work.outcome .empty).2)) := by
  unfold onStore
  by_cases transient : Directory.isPrivate settings = true
  · rw [if_pos transient]
    exact .inl found
  · rw [if_neg transient]
    obtain ⟨own, named⟩ : ∃ own, settings.path = some own := by
      cases named : settings.path with
      | none => simp [Directory.isPrivate, named] at transient
      | some own => exact ⟨own, rfl⟩
    rw [named, Option.getD_some]
    dsimp only
    cases opened : d.openStore? own with
    | none => exact .inl found
    | some made =>
      obtain ⟨s, e⟩ := made
      dsimp only
      by_cases same : Directory.resolve? path = Directory.resolve? own
      · obtain ⟨nothing, rfl, free⟩ :=
          Directory.openStore?_text ((d.file?_congr same).symm.trans found) opened
        generalize work.outcome .empty = done
        obtain ⟨answer, t⟩ := done
        obtain ⟨d', put⟩ := free.put (.store t)
        refine .inr ⟨nothing, ⟨own, rfl, same.symm⟩, ?_⟩
        dsimp only
        rw [put, Option.getD_some, Directory.file?_put put, if_pos same]
      · have kept := (Directory.openStore?_others opened same).trans found
        generalize work.outcome s = done
        obtain ⟨answer, t⟩ := done
        dsimp only
        cases put : e.put? own (.store t) with
        | none => exact .inl kept
        | some d' =>
          rw [Option.getD_some, Directory.file?_put put, if_neg same]
          exact .inl kept

variable {i : Invocation} {c : Settings}

def makeStore (i : Invocation) (c : Settings) (written : Bool) (d : Directory) :
    Except Failure String × Directory :=
  onStore (c.store.withPath i.database) "creating ledger" (do
    let stats := (← get).stats
    let database := (c.store.withPath i.database).path.getD ":memory:"
    return inFormat i.format (initJson i.settings written database stats)
      (initText i.settings written database stats)) d

theorem setUp_kept (there : d.has i.settings = true) :
    setUp i c false d = makeStore i c false d := by
  simp only [setUp, there]
  rfl

theorem setUp_forced :
    setUp i c true d = match d.put? i.settings (.text c.text) with
      | none => (.error (.words ("writing " ++ i.settings)), d)
      | some d => makeStore i c true d := rfl

theorem makeStore_text (found : d.file? path = some (.text text)) (i : Invocation) (c : Settings)
    (written : Bool) :
    (makeStore i c written d).2.file? path = some (.text text) ∨
      (text = "" ∧ (∃ own, (c.store.withPath i.database).path = some own ∧
        Directory.resolve? own = Directory.resolve? path) ∧
        (makeStore i c written d).2.file? path = some (.store .empty)) :=
  onStore_text found _ _ _

theorem settings_text {c : Settings} (writable : c.Writable)
    (found : d.file? path = some (.text c.text)) : d.settings path = .ok c := by
  rw [Directory.settings, found]
  dsimp only
  rw [writable.read_text]
  rfl

/-- Settings that were read from a file are in a text. -/
theorem file?_of_settings {f : File} (read : d.settings path = .ok c)
    (found : d.file? path = some f) : ∃ text, f = .text text := by
  cases f with
  | text text => exact ⟨text, rfl⟩
  | store s =>
    rw [Directory.settings, found] at read
    cases read

def runInit (around : Surroundings) (i : Invocation) (force : Bool) (d : Directory) :
    Except Failure String × Directory :=
  run around { i with command := .init force } d

theorem runInit_ok (around : Surroundings) (i : Invocation) (force : Bool)
    (read : d.settings i.settings = .ok c) : runInit around i force d = setUp i c force d := by
  simp only [runInit, run, read]
  rfl

theorem setUp_writes (writable : c.Writable) (read : d.settings i.settings = .ok c) :
    (setUp i c true d = (.error (.words ("writing " ++ i.settings)), d) ∨
      (setUp i c true d).2.file? i.settings = some (.text c.text)) ∧
      (setUp i c true d).2.settings i.settings = .ok c := by
  rw [setUp_forced]
  cases put : d.put? i.settings (.text c.text) with
  | none => exact ⟨.inl rfl, read⟩
  | some d' =>
    have found : d'.file? i.settings = some (.text c.text) := by
      rw [Directory.file?_put put, if_pos rfl]
    rcases makeStore_text found i c true with kept | ⟨nothing, -⟩
    · exact ⟨.inr kept, settings_text writable kept⟩
    · exact absurd nothing writable.text_ne

theorem setUp_again (writable : c.Writable) (read : d.settings i.settings = .ok c) :
    (setUp i c true (setUp i c true d).2).2.file? i.settings =
      (setUp i c true d).2.file? i.settings := by
  obtain ⟨refused | written, kept⟩ := setUp_writes writable read
  · rw [refused]
    dsimp only
    rw [refused]
  · rcases (setUp_writes writable kept).1 with refused | again
    · rw [refused]
    · rw [again, written]

/-- Settings are read back as they were written. Setting up keeps the file of the settings, unless
it is empty and the path of the store is its own: then the store takes its place. Setting up by
force keeps what the settings are, and doing it again keeps their text. Where the settings cannot be
read nothing is set up. The file of the settings is to be none of the engine's own. -/
theorem init_settles (around : Surroundings) (i : Invocation) (d : Directory) :
    (∀ (c : Settings) (path : String) (e e' : Directory), c.Writable →
      e.put? path (.text c.text) = some e' → e'.settings path = .ok c) ∧
    (∀ words force, d.settings i.settings = .error words →
      runInit around i force d = (.error (.words words), d)) ∧
    ∀ c, d.settings i.settings = .ok c →
      (∀ own, (c.store.withPath i.database).path = some own →
        Directory.Separate own i.settings) →
      (∀ f, d.file? i.settings = some f →
        (runInit around i false d).2.file? i.settings = some f ∨
          f = .text "" ∧ (∃ own, (c.store.withPath i.database).path = some own ∧
            Directory.resolve? own = Directory.resolve? i.settings) ∧
            (runInit around i false d).2.file? i.settings = some (.store .empty)) ∧
      (c.Writable →
        let once := runInit around i true d
        (once = (.error (.words ("writing " ++ i.settings)), d) ∨
          once.2.file? i.settings = some (.text c.text)) ∧
        once.2.settings i.settings = .ok c ∧
        (runInit around i true once.2).2.file? i.settings = once.2.file? i.settings) := by
  refine ⟨fun c path e e' writable put => ?_, fun words force refused => ?_,
    fun c read _ => ⟨?_, ?_⟩⟩
  · exact settings_text writable (by rw [Directory.file?_put put, if_pos rfl])
  · simp only [runInit, run, refused]
  · intro f found
    obtain ⟨text, rfl⟩ := file?_of_settings read found
    have there : d.has i.settings = true := by simp [Directory.has, found]
    rw [runInit_ok around i false read, setUp_kept there]
    rcases makeStore_text found i c false with kept | ⟨rfl, own, taken⟩
    · exact .inl kept
    · exact .inr ⟨rfl, own, taken⟩
  · intro writable
    obtain ⟨written, kept⟩ := setUp_writes writable read
    rw [runInit_ok around i true read]
    dsimp only
    rw [runInit_ok around i true kept]
    exact ⟨written, kept, setUp_again writable read⟩

theorem init_settles_kept :
    let around : Surroundings := ⟨.epoch, default⟩
    let c : Settings := ⟨5, ⟨some "data/ledger.db", false, 250⟩⟩
    let d : Directory := ⟨[(["vrl.toml"], .text c.text)], [["data"]]⟩
    let i : Invocation := ⟨.reconcile true, .text, none, "vrl.toml"⟩
    d.settings "vrl.toml" = .ok c ∧
      (runInit around i false d).2.file? "vrl.toml" = some (.text c.text) ∧
      (runInit around i true d).2.settings "vrl.toml" = .ok c ∧
      (runInit around i true (runInit around i true d).2).2.file? "vrl.toml" =
        some (.text c.text) := by
  intro around c d i
  have writable : c.Writable :=
    ⟨by decide, by decide, by decide, by rintro p ⟨⟩; exact Toml.Quoted.plain_of_all (by decide)⟩
  have found : d.file? "vrl.toml" = some (.text c.text) := rfl
  have read : d.settings "vrl.toml" = .ok c := settings_text writable found
  obtain ⟨-, -, settled⟩ := init_settles around i d
  have separate : ∀ own, (c.store.withPath i.database).path = some own →
      Directory.Separate own i.settings := by
    rintro own ⟨⟩
    exact ⟨by decide, by decide, by decide⟩
  obtain ⟨kept, forced⟩ := settled c read separate
  obtain ⟨written, same, again⟩ := forced writable
  refine ⟨read, ?_, same, ?_⟩
  · rcases kept _ found with kept | ⟨empty, -⟩
    · exact kept
    · exact absurd (File.text.inj empty) writable.text_ne
  · refine again.trans ?_
    rcases written with refused | written
    · rw [refused]
      exact found
    · exact written

/-- The file of the settings is empty and is given as the store: it is gone. -/
theorem empty_settings_replaced :
    let d : Directory := ⟨[(["vrl.toml"], .text "")], []⟩
    let i : Invocation := ⟨.init false, .text, some "vrl.toml", "vrl.toml"⟩
    d.settings i.settings = .ok .default ∧ Settings.default.Writable ∧
      d.file? i.settings = some (.text "") ∧
      (run ⟨.epoch, default⟩ i d).2.file? i.settings = some (.store .empty) := by
  intro d i
  exact ⟨by decide +kernel, Settings.default_writable, by decide, by decide⟩

end Command
end RecordLedger
