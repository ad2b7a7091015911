import RecordLedger.Proofs.Ledger.Append
import RecordLedger.Proofs.Ledger.Consistency
import RecordLedger.Proofs.Ledger.Page

/-! Numbers and rows of runs. Every version takes one number of the history and at most one of the
index, and a database has place for far fewer rows than there are numbers. -/
namespace RecordLedger.Ledger

structure Frugal (s : Store) : Prop where
  versions : s.lastVersion = s.versions.length
  index : s.lastIndex ≤ s.lastVersion
  rows : s.versions.length ≤ Store.maxRows

variable {s t : Store} {now : Instant} {id : RecordId} {tag : Tag} {payload : String} {e : Event}

theorem empty_frugal : Frugal .empty := ⟨rfl, Int.le_refl 0, Nat.zero_le _⟩

theorem Frugal.numbers (frugal : Frugal s) : s.lastVersion < Word.maxSigned := by
  have rows := frugal.rows
  have versions := frugal.versions
  simp only [Store.maxRows, Word.maxSigned] at *
  omega

theorem Frugal.places (frugal : Frugal s) : s.lastIndex < Word.maxSigned :=
  Int.lt_of_le_of_lt frugal.index frugal.numbers

/-- So no row of the index has the greatest number. -/
theorem Frugal.below (frugal : Frugal s) (sound : Store.Sound s) :
    ∀ row ∈ s.index, row.sequence < Word.maxSigned := fun _ stored =>
  Int.lt_of_le_of_lt (sound.index.used _ (List.mem_map_of_mem stored)) frugal.places

theorem Frugal.grown (frugal : Frugal s) (room : Room s now id tag payload) :
    Frugal (grown s now id tag payload) := by
  obtain ⟨count, -⟩ := Store.takes_iff.mp room.taken
  have versions := frugal.versions
  have index := frugal.index
  refine ⟨?_, ?_, ?_⟩
  · simp only [Ledger.grown, List.length_append, List.length_singleton]
    omega
  · simp only [Ledger.grown]
    split <;> omega
  · simp only [Ledger.grown, List.length_append, List.length_singleton]
    omega

/-- Where the index is in line with the history, an event that fails no call leaves the store as it
was or appends a version that meets no limit. -/
theorem Advance.grows (step : Advance s e) (steady : Steady s) :
    e.after = s ∨ ∃ id tag payload, Room s e.now id tag payload ∧
      e.after = Ledger.grown s e.now id tag payload := by
  obtain ⟨now, operation, outcome, after⟩ := e
  have met := step.met
  have frame : operation.Reads → after = s := by
    intro reading
    have same := keeps_reading now operation reading s
    rwa [met] at same
  cases operation with
  | change c =>
    cases outcome with
    | error f =>
      rcases c.answer_cases met step.undisturbed with ⟨_, same⟩ | ⟨_, _, _, _, _, other, _⟩
      · exact .inl same
      · cases other
    | ok v =>
      obtain ⟨payload, room, _, same⟩ := c.answer_room met
      exact .inr ⟨c.id, c.tag, payload, room, same⟩
  | reconcile =>
    simp only [Operation.perform, reconcile_indexed now steady.sound steady.consistent.indexed,
      Prod.mk.injEq] at met
    exact .inl met.2.symm
  | _ => exact .inl (frame trivial)

theorem Advance.frugal (step : Advance s e) (steady : Steady s) (frugal : Frugal s) :
    Frugal e.after := by
  rcases step.grows steady with same | ⟨_, _, _, room, same⟩
  · exact same ▸ frugal
  · exact same ▸ frugal.grown room

theorem Run.frugal (run : Run .empty events s) : Frugal s := by
  have kept (s : Store) (e : Event) (valid : Steady s ∧ Frugal s) (step : Advance s e) :
      Steady e.after ∧ Frugal e.after :=
    ⟨step.steady valid.1, step.frugal valid.1 valid.2⟩
  exact (run.invariant _ kept ⟨⟨.empty, empty_consistent⟩, empty_frugal⟩).2

theorem Run.room (run : Run .empty events s) (tag : Tag) : ¬ Exhausted tag s := by
  rintro ⟨row, stored, _, greatest⟩
  exact Int.ne_of_lt (run.frugal.below run.steady.sound row stored) greatest

end RecordLedger.Ledger
