import RecordLedger.Command.Run
import Mathlib.Data.List.Basic

/-! Files of a working directory, and stores opened in it: what is put at a path is found there, and
nothing else changes. -/
namespace RecordLedger

namespace Directory

variable {d d' : Directory} {path other : String} {ps : List String} {file : File}

/-- No file has the path of a directory. -/
def Sane (d : Directory) : Prop := ∀ f ∈ d.files, d.hasDirectory f.1 = false

/-- The store at a path; where there is none, that of a new file. -/
def store (d : Directory) (path : String) : Store :=
  match d.file? path with
  | some (.store s) => s
  | _ => .empty

theorem file?_mem (found : d.file? path = some file) :
    ∃ ps, resolve? path = some ps ∧ (ps, file) ∈ d.files := by
  obtain ⟨ps, resolved, found⟩ := Option.bind_eq_some_iff.mp found
  obtain ⟨⟨qs, _⟩, listed, rfl⟩ := Option.map_eq_some_iff.mp found
  obtain rfl : qs = ps := by simpa using List.find?_some listed
  exact ⟨qs, resolved, List.mem_of_find?_eq_some listed⟩

theorem hasDirectory_around (stored : (ps, file) ∈ d.files) (apart : d.hasDirectory ps = false) :
    d.hasDirectory ps.dropLast = true := by
  have filled : ps ≠ [] := by
    rintro rfl
    simp [hasDirectory] at apart
  have positive := List.length_pos_iff.mpr filled
  rw [hasDirectory, Bool.or_eq_true]
  refine .inr (List.any_eq_true.mpr ⟨(ps, file), stored, ?_⟩)
  simp only [List.length_dropLast, ← List.dropLast_eq_take, beq_self_eq_true, Bool.and_true,
    decide_eq_true_eq]
  omega

theorem put?_of_file (resolved : resolve? path = some ps) (stored : (ps, file) ∈ d.files)
    (apart : d.hasDirectory ps = false) (file' : File) :
    d.put? path file' = some { d with files := (ps, file') :: d.files.filter (·.1 ≠ ps) } := by
  simp [put?, resolved, apart, hasDirectory_around stored apart]

theorem put?_cases (put : d.put? path file = some d') :
    ∃ ps, resolve? path = some ps ∧ d.hasDirectory ps = false ∧
      d' = { d with files := (ps, file) :: d.files.filter (·.1 ≠ ps) } := by
  obtain ⟨ps, resolved, put⟩ := Option.bind_eq_some_iff.mp put
  split at put
  · cases put
  · next free =>
    simp only [Bool.or_eq_true, not_or, Bool.not_eq_true] at free
    cases put
    exact ⟨ps, resolved, free.1, rfl⟩

/-- What was put at a path is found at all its spellings, and every other file as before. -/
theorem file?_put (put : d.put? path file = some d') (other : String) :
    d'.file? other = if resolve? other = resolve? path then some file else d.file? other := by
  obtain ⟨ps, resolved, _, rfl⟩ := put?_cases put
  rw [resolved]
  cases found : resolve? other with
  | none => simp [file?, found]
  | some qs =>
    by_cases same : qs = ps
    · simp [file?, found, same]
    · have kept : d.files.find? (fun f => !decide (f.1 = ps) && decide (f.1 = qs)) =
          d.files.find? (·.1 = qs) := by
        congr 1
        funext f
        by_cases here : f.1 = qs
        · simp [here, same]
        · simp [here]
      have skipped : ¬ ps = qs := fun equal => same equal.symm
      simp [file?, found, same, skipped, kept]

theorem store_put {s : Store} (put : d.put? path (.store s) = some d') (other : String) :
    d'.store other = if resolve? other = resolve? path then s else d.store other := by
  rw [store, file?_put put]
  by_cases same : resolve? other = resolve? path
  · rw [if_pos same, if_pos same]
  · rw [if_neg same, if_neg same, store]

theorem store_put_text {text : String} (put : d.put? path (.text text) = some d') (other : String) :
    d'.store other = .empty ∨ d'.store other = d.store other := by
  rw [store, file?_put put]
  by_cases same : resolve? other = resolve? path
  · rw [if_pos same]
    exact .inl rfl
  · rw [if_neg same]
    exact .inr rfl

theorem store_congr (d : Directory) (same : resolve? other = resolve? path) :
    d.store other = d.store path := by
  rw [store, store, file?, file?, same]

/-- Putting a file in the place of another leaves every directory. -/
theorem hasDirectory_put (resolved : resolve? path = some ps) (stored : (ps, file) ∈ d.files)
    {file' : File} (put : d.put? path file' = some d') (qs : List String) :
    d'.hasDirectory qs = d.hasDirectory qs := by
  obtain ⟨ps', resolved', _, rfl⟩ := put?_cases put
  obtain rfl : ps' = ps := Option.some.inj (resolved'.symm.trans resolved)
  have same : ∀ below : List String → Bool,
      ((ps', file') :: d.files.filter (·.1 ≠ ps')).any (fun f => below f.1) =
        d.files.any fun f => below f.1 := by
    intro below
    rw [Bool.eq_iff_iff, List.any_eq_true, List.any_eq_true]
    constructor
    · rintro ⟨f, member, under⟩
      rcases List.mem_cons.mp member with rfl | old
      · exact ⟨_, stored, under⟩
      · exact ⟨f, (List.mem_filter.mp old).1, under⟩
    · rintro ⟨f, member, under⟩
      by_cases here : f.1 = ps'
      · exact ⟨_, List.mem_cons_self, here ▸ under⟩
      · exact ⟨f, List.mem_cons_of_mem _ (List.mem_filter.mpr ⟨member, by simpa using here⟩), under⟩
  exact congrArg (qs.isEmpty || d.directories.contains qs || ·)
    (same fun ps => qs.length < ps.length && ps.take qs.length == qs)

/-- Settings stay as they are while a store takes the place of another one. -/
theorem settings_put {s t : Store} (found : d.file? path = some (.store s))
    (put : d.put? path (.store t) = some d') {settings : Settings}
    (read : d.settings other = .ok settings) : d'.settings other = .ok settings := by
  obtain ⟨ps, resolved, stored⟩ := file?_mem found
  have apart : resolve? other ≠ resolve? path := by
    intro same
    have here : d.file? other = some (.store s) := by
      rw [← found, file?, file?, same]
    rw [Directory.settings, here] at read
    cases read
  have directories : d'.isDirectory other = d.isDirectory other := by
    unfold isDirectory
    cases resolve? other with
    | none => rfl
    | some qs => exact hasDirectory_put resolved stored put qs
  rw [Directory.settings, file?_put put, if_neg apart, directories]
  exact read

def Replaceable (d : Directory) (path : String) : Prop :=
  ∃ ps file, resolve? path = some ps ∧ (ps, file) ∈ d.files ∧ d.hasDirectory ps = false

theorem Replaceable.put (free : d.Replaceable path) (file : File) :
    ∃ d', d.put? path file = some d' := by
  obtain ⟨ps, _, resolved, stored, apart⟩ := free
  exact ⟨_, put?_of_file resolved stored apart file⟩

theorem replaceable_put (put : d.put? path file = some d') : d'.Replaceable path := by
  obtain ⟨ps, resolved, apart, rfl⟩ := put?_cases put
  refine ⟨ps, file, resolved, List.mem_cons_self, ?_⟩
  simp only [hasDirectory, Bool.or_eq_false_iff, List.any_eq_false] at apart ⊢
  refine ⟨apart.1, fun f member => ?_⟩
  rcases List.mem_cons.mp member with rfl | old
  · simp
  · exact apart.2 f (List.mem_filter.mp old).1

/-- Opening a store shows the one that is there, and makes an empty one of what is missing. -/
theorem openStore?_stores {s : Store} (opened : d.openStore? path = some (s, d')) :
    s = d.store path ∧ ∀ other, d'.store other = d.store other := by
  have made (absent : d.store path = .empty) (put : d.put? path (.store .empty) = some d') :
      .empty = d.store path ∧ ∀ other, d'.store other = d.store other := by
    refine ⟨absent.symm, fun other => ?_⟩
    rw [store_put put]
    split
    · next same => rw [d.store_congr same, absent]
    · rfl
  unfold openStore? at opened
  split at opened
  · next found =>
    cases opened
    exact ⟨by rw [store, found], fun _ => rfl⟩
  · next found =>
    split at opened
    · obtain ⟨_, put, same⟩ := Option.map_eq_some_iff.mp opened
      cases same
      exact made (by rw [store, found]) put
    · cases opened
  · next found =>
    obtain ⟨_, put, same⟩ := Option.map_eq_some_iff.mp opened
    cases same
    exact made (by rw [store, found]) put

theorem replaceable_of_file (sane : d.Sane) (found : d.file? path = some file) :
    d.Replaceable path := by
  obtain ⟨ps, resolved, stored⟩ := file?_mem found
  exact ⟨ps, file, resolved, stored, sane _ stored⟩

theorem openStore?_replaceable (sane : d.Sane) {s : Store}
    (opened : d.openStore? path = some (s, d')) : d'.Replaceable path := by
  unfold openStore? at opened
  split at opened
  · next found =>
    cases opened
    exact replaceable_of_file sane found
  · split at opened
    · obtain ⟨_, put, same⟩ := Option.map_eq_some_iff.mp opened
      cases same
      exact replaceable_put put
    · cases opened
  · obtain ⟨_, put, same⟩ := Option.map_eq_some_iff.mp opened
    cases same
    exact replaceable_put put

end Directory

namespace Command

variable {d : Directory} {α : Type}

/-- Work on a store is done on a private one, or not at all, or on the one in a file and then kept
there. -/
theorem onStore_cases (sane : d.Sane) (settings : StoreSettings) (refusal : String)
    (work : Action α) :
    (Directory.isPrivate settings = true ∧
      onStore settings refusal work d = ((work.outcome .empty).1, d)) ∨
    onStore settings refusal work d = (.error (.words refusal), d) ∨
    Directory.isPrivate settings = false ∧ ∃ path d', settings.path = some path ∧
      onStore settings refusal work d = ((work.outcome (d.store path)).1, d') ∧
      d'.store path = (work.outcome (d.store path)).2 ∧
      ∀ other, Directory.resolve? other ≠ Directory.resolve? path →
        d'.store other = d.store other := by
  unfold onStore
  by_cases transient : Directory.isPrivate settings = true
  · exact .inl ⟨transient, by rw [if_pos transient]⟩
  · right
    rw [if_neg transient]
    cases named : settings.path with
    | none => simp [Directory.isPrivate, named] at transient
    | some path =>
      dsimp only [Option.getD_some]
      cases opened : d.openStore? path with
      | none => exact .inl rfl
      | some found =>
        obtain ⟨s, e⟩ := found
        obtain ⟨rfl, others⟩ := Directory.openStore?_stores opened
        obtain ⟨d', put⟩ := (Directory.openStore?_replaceable sane opened).put
          (.store (work.outcome (d.store path)).2)
        refine .inr ⟨by simpa using transient, path, d', rfl, ?_, ?_, fun other apart => ?_⟩
        · have kept := congrArg (Option.getD · e) put
          exact congrArg ((work.outcome (d.store path)).1, ·) kept
        · rw [Directory.store_put put, if_pos rfl]
        · rw [Directory.store_put put, if_neg apart, others]

theorem onStore_stored {settings : StoreSettings} {path : String} {s : Store}
    (shared : Directory.isPrivate settings = false) (named : settings.path = some path)
    (found : d.file? path = some (.store s)) (free : d.Replaceable path) (refusal : String)
    (work : Action α) :
    ∃ d', d.put? path (.store (work.outcome s).2) = some d' ∧
      onStore settings refusal work d = ((work.outcome s).1, d') := by
  obtain ⟨d', put⟩ := free.put (.store (work.outcome s).2)
  refine ⟨d', put, ?_⟩
  have opened : d.openStore? path = some (s, d) := by rw [Directory.openStore?, found]
  rw [onStore, shared, if_neg Bool.false_ne_true, named, Option.getD_some]
  dsimp only
  rw [opened]
  exact congrArg ((work.outcome s).1, Option.getD · d) put

/-- Every store stays as it was, unless the work was done on it. -/
theorem onStore_stores (settings : StoreSettings) (refusal : String) (work : Action α)
    (d : Directory) (other : String) :
    (onStore settings refusal work d).2.store other = d.store other ∨
      (onStore settings refusal work d).1 = (work.outcome (d.store other)).1 ∧
        (onStore settings refusal work d).2.store other = (work.outcome (d.store other)).2 := by
  unfold onStore
  split
  · exact .inl rfl
  · dsimp only
    cases opened : d.openStore? (settings.path.getD "") with
    | none => exact .inl rfl
    | some found =>
      obtain ⟨s, e⟩ := found
      obtain ⟨rfl, others⟩ := Directory.openStore?_stores opened
      dsimp only
      generalize met : work.outcome (d.store (settings.path.getD "")) = done
      obtain ⟨answer, t⟩ := done
      dsimp only
      cases put : e.put? (settings.path.getD "") (.store t) with
      | none => exact .inl (others other)
      | some d' =>
        rw [Option.getD_some, Directory.store_put put]
        by_cases same : Directory.resolve? other = Directory.resolve? (settings.path.getD "")
        · rw [d.store_congr same, met, if_pos same]
          exact .inr ⟨rfl, rfl⟩
        · rw [if_neg same]
          exact .inl (others other)

/-- A command that sets nothing up does its work on the store that the settings name. -/
theorem run_performs {around : Surroundings} {i : Invocation} {settings : Settings}
    (other : ∀ force, i.command ≠ .init force) (read : d.settings i.settings = .ok settings) :
    run around i d = onStore (settings.store.withPath i.database) "opening ledger"
      (perform around settings i.format i.command) d := by
  obtain ⟨command, format, database, path⟩ := i
  cases command <;> first | exact absurd rfl (other _) | simp only [run, read]

end Command
end RecordLedger
