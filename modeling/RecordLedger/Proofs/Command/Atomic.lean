import RecordLedger.Proofs.Command.Files
import RecordLedger.Proofs.Command.Outcome

/-! Commands do all or nothing, whatever stands in the settings and on the command line. -/
namespace RecordLedger.Command

open Ledger (Session Turn Untampered)

variable {around : Surroundings} {i : Invocation} {d : Directory} {turns : List Turn}

def opened (i : Invocation) (d : Directory) : Store :=
  ((storePath? i d).map d.store).getD .empty

/-- What a command leaves in its directory: it fails before it has a store, or works on one that is
gone at the end, or on the one in a file. -/
inductive Left (fresh : RecordId) (i : Invocation) (d : Directory) (r : Except Failure String) :
    Directory → Prop
  | refused (failed : r.isOk = false) : Left fresh i d r d
  | transient (t : Store) (met : AllOrNothing fresh i.command r .empty t) : Left fresh i d r d
  | kept {d' : Directory} (path : String) (named : storePath? i d = some path)
      (met : AllOrNothing fresh i.command r (d.store path) (d'.store path))
      (others : ∀ other, Directory.resolve? other ≠ Directory.resolve? path →
        d'.store other = d.store other) : Left fresh i d r d'

/-- A command that fails leaves both relations as they were, and one that succeeds has appended the
one version that it is about, has only repaired the index, or has changed nothing. The exception
needs statements that took rows away from the index, and an index that has no number left: a write,
a restore or a reconciliation then fails behind its first step. -/
theorem run_all_or_nothing (around : Surroundings) (ordinary : i.command.Ordinary) (sane : d.Sane)
    (session : Session turns (opened i d))
    (early : ∀ r ∈ (opened i d).versions, r.timestamp < Word.maxSigned) :
    Left around.fresh i d (run around i d).1 (run around i d).2 ∨
    ∃ path, storePath? i d = some path ∧
      CutShort around.fresh i.command (run around i d).1 (d.store path)
        ((run around i d).2.store path) ∧
      Spent turns ((run around i d).2.store path) ∧
      ∀ other, Directory.resolve? other ≠ Directory.resolve? path →
        (run around i d).2.store other = d.store other := by
  cases read : d.settings i.settings with
  | error words =>
    have refused : run around i d = (.error (.words words), d) := by rw [run, read]
    rw [refused]
    exact .inl (.refused rfl)
  | ok settings =>
    rw [run_performs (fun _ same => by rw [same] at ordinary; exact ordinary) read]
    rcases onStore_cases sane (settings.store.withPath i.database) "opening ledger"
      (perform around settings i.format i.command) with ⟨_, met⟩ | met |
      ⟨_, path, d', named, met, after, others⟩
    · rw [met]
      rcases perform_settles .nil (List.forall_mem_nil _) ordinary rfl with met | ⟨_, tampered, _⟩
      · exact .inl (.transient _ met)
      · exact absurd (Ledger.untampered_operations []) tampered
    · rw [met]
      exact .inl (.refused rfl)
    · have named : storePath? i d = some path := by
        rw [storePath?, read]
        exact named
      rw [opened, named] at session early
      rw [met]
      generalize worked : (perform around settings i.format i.command).outcome (d.store path) =
        work at after ⊢
      obtain ⟨r, t⟩ := work
      obtain rfl : d'.store path = t := after
      rcases perform_settles session early ordinary worked with met | ⟨cut, spent⟩
      · exact .inl (.kept path named met others)
      · exact .inr ⟨path, named, cut, spent, others⟩

/-- A second body under the tag of other records, in a file of its own. -/
theorem filed_all_or_nothing :
    let around : Surroundings := ⟨.epoch, default⟩
    let i : Invocation :=
      ⟨.write Ledger.memoTag "\x7b\"a\":[1,-0]\x7d" none, .json, none, "vrl.toml"⟩
    let s := Ledger.left .empty (Ledger.play Ledger.returning .empty)
    let d : Directory := ⟨[(["vrl.db"], .store s)], []⟩
    (run around i d).1.isOk = true ∧ ((run around i d).2.store "vrl.db").versions.length = 5 ∧
    i.command.Ordinary ∧ d.Sane ∧ opened i d = s ∧ Session Ledger.returningTurns s ∧
    (∀ r ∈ s.versions, r.timestamp < Word.maxSigned) ∧
    Left around.fresh i d (run around i d).1 (run around i d).2 := by
  intro around i s d
  have run := Ledger.play_run Ledger.returning .empty (by decide)
  have session : Session Ledger.returningTurns s := run.session .nil
  have opened : opened i d = s := by decide +kernel
  have early : ∀ r ∈ s.versions, r.timestamp < Word.maxSigned := by decide +kernel
  have sane : d.Sane := by
    intro f stored
    rw [List.mem_singleton.mp stored]
    rfl
  have ordinary : i.command.Ordinary := trivial
  refine ⟨by decide +kernel, by decide +kernel, ordinary, sane, opened, session, early, ?_⟩
  rcases run_all_or_nothing around ordinary sane (opened ▸ session) (opened ▸ early) with
    settled | ⟨_, _, _, ⟨tampered, _⟩, _⟩
  · exact settled
  · exact absurd (Ledger.untampered_operations _) tampered

/-- A statement that passes for a read gives the one index row the greatest number. The write of
another record then fails, with its version in the history. -/
theorem raised_write_half_done :
    let around : Surroundings := ⟨.epoch, default⟩
    let i : Invocation :=
      ⟨.write Ledger.memoTag "\x7b\"a\":1\x7d" (some Ledger.otherId), .json, none, "vrl.toml"⟩
    let d : Directory := ⟨[(["vrl.db"], .store Ledger.raised)], []⟩
    Ledger.Run .empty Ledger.writing Ledger.once ∧
    (Ledger.query (Store.answer default) Query.raising []).outcome Ledger.once =
      (.ok (.unpaginated []), Ledger.raised) ∧
    i.command.Ordinary ∧ d.Sane ∧ opened i d = Ledger.raised ∧
    (run around i d).1.isOk = false ∧ Ledger.raised.versions.length = 1 ∧
    ((run around i d).2.store "vrl.db").versions.length = 2 := by
  intro around i d
  have sane : d.Sane := by
    intro f stored
    rw [List.mem_singleton.mp stored]
    rfl
  exact ⟨Ledger.writing_run, Ledger.once_raised, trivial, sane, by decide +kernel,
    by decide +kernel, rfl, by decide +kernel⟩

end RecordLedger.Command
