import RecordLedger.Proofs.Command.Files
import RecordLedger.Proofs.Command.Outcome

/-! Stores in the service of commands: whatever commands are run in a directory, the stores in it
come from sessions of a ledger, and every version in them holds a document. -/
namespace RecordLedger.Command

open Ledger (Session Turn Change)
open Store (Logged)

def Failure.IsStore : Failure → Prop
  | .ledger (.store _) => True
  | .collection (.ledger (.store _)) => True
  | _ => False

def Undisturbed (r : Except Failure String) : Prop := ∀ f, r = .error f → ¬ f.IsStore

/-- Every version holds a document; a deletion holds the empty one. -/
def Documents (past : List Version) : Prop :=
  ∀ v ∈ past, (Decodable.decode? (α := Document) v.payload).isSome = true

/-- Sessions lead to the store that have appended documents alone. -/
def Documented (s : Store) : Prop := ∃ turns, Session turns s ∧ Documents (Ledger.log turns)

def states : Command → Bool
  | .query .. => true
  | _ => false

/-- Directories whose stores commands alone have made and no call has failed on. Statements may take
rows of an index away and do nothing else. Between commands other files may change, and stores may
be copied, moved or removed. -/
inductive Served : Directory → Prop
  | fresh (nothing : ∀ path, d.store path = .empty) : Served d
  | command (served : Served d) (met : run around i d = (r, d')) (undisturbed : Undisturbed r)
      (trimmed : i.command.states = true → ∀ path, (d.store path).Trimmed (d'.store path)) :
      Served d'
  | arranged (served : Served d)
      (kept : ∀ path, d'.store path = .empty ∨ ∃ other, d'.store path = d.store other) : Served d'

variable {around : Surroundings} {settings : Settings} {format : Format} {s t : Store}
  {turns : List Turn} {past : List Version} {now : Instant} {c : Command} {i : Invocation}
  {d d' : Directory} {r : Except Failure String} {answer : Except Ledger.Error Version}

theorem documented_empty : Documented .empty :=
  ⟨[], .nil, fun _ member => absurd member List.not_mem_nil⟩

/-- A change appends its own payload, or a deletion, or what an earlier version holds. -/
theorem due_holds {P : String → Prop} {change : Change} {payload : String}
    (due : change.due past = .ok payload) (old : ∀ v ∈ past, P v.payload) (dead : P tombstone)
    (body : ∀ fresh draft, change = .write fresh draft → draft.payload = .ok payload → P payload) :
    P payload := by
  cases change with
  | write fresh draft =>
    refine body fresh draft rfl ?_
    have encoded : draft.payload.mapError Ledger.Error.unencodable = .ok payload := by
      simp only [Change.due] at due
      split at due
      · exact due
      · split at due
        · exact due
        · cases due
    cases own : draft.payload <;> rw [own] at encoded <;> cases encoded
    rfl
  | delete id tag =>
    simp only [Change.due] at due
    split at due
    · cases due
      exact dead
    · cases due
  | restore id tag at_ =>
    simp only [Change.due] at due
    split at due
    · cases due
    · next v found =>
      cases due
      exact old v (mem_entries.mp (List.mem_of_find?_eq_some found)).1

theorem change_documented (documented : Documented s) (change : Change)
    (met : (change.perform (Store.answer now)).outcome s = (answer, t))
    (undisturbed : ∀ f, answer ≠ .error (.store f))
    (body : ∀ fresh draft payload, change = .write fresh draft → draft.payload = .ok payload →
      (Decodable.decode? (α := Document) payload).isSome = true) : Documented t := by
  obtain ⟨turns, session, documents⟩ := documented
  let e : Turn := ⟨now, .operation (.change change), answer, t⟩
  have follows : e.Follows s := ⟨met, fun _ _ => undisturbed⟩
  refine ⟨turns ++ [e], session.snoc follows, fun v member => ?_⟩
  rw [Ledger.log_snoc] at member
  rcases List.mem_append.mp member with old | new
  · exact documents v old
  · cases Change.changed session.logged met undisturbed with
    | refused e due => cases new
    | appended w due names tagged inserted =>
      obtain rfl := List.mem_singleton.mp new
      exact due_holds (P := fun p => (Decodable.decode? (α := Document) p).isSome = true) due
        documents (by decide +kernel) fun fresh draft => body fresh draft _

theorem follows_documented (documented : Documented s) {e : Turn} (follows : e.Follows s)
    (other : ∀ c, e.request ≠ .operation (.change c)) : Documented e.after := by
  obtain ⟨turns, session, documents⟩ := documented
  refine ⟨_, session.snoc follows, ?_⟩
  rw [Ledger.log_snoc, Turn.appended?_eq_none other, Option.toList_none, List.append_nil]
  exact documents

inductive Changes : Command → Change → (Version → String) → Prop
  | delete (tag : Tag) (id : RecordId) : Changes (.delete tag id) (.delete id tag) deletedText
  | restore (tag : Tag) (id : RecordId) (at_ : Instant) :
      Changes (.restore tag id at_) (.restore id tag at_) (restoredText · at_)

theorem Changes.perform_eq {change : Change} {text : Version → String}
    (changes : Changes c change text) (s : Store) :
    (perform around settings format c).outcome s =
      let done := (change.perform (Store.answer around.now)).outcome s
      ((done.1.mapError .ledger).map fun v => inFormat format (versionJson v) (text v),
        done.2) := by
  cases changes <;> rw [perform, outcome_printed] <;> rfl

theorem Changes.documented {change : Change} {text : Version → String}
    (changes : Changes c change text) (documented : Documented s)
    (met : (perform around settings format c).outcome s = (r, t)) (undisturbed : Undisturbed r) :
    Documented t := by
  rw [changes.perform_eq] at met
  generalize done : (change.perform (Store.answer around.now)).outcome s = after at met
  obtain ⟨answer, u⟩ := after
  cases met
  refine change_documented documented change done (fun f failed => ?_) ?_
  · exact undisturbed (.ledger (.store f)) (by rw [failed]; rfl) trivial
  · cases changes <;> nofun

theorem write_documented (documented : Documented s) {tag : Tag} {body : String}
    {id : Option RecordId}
    (met : (perform around settings format (.write tag body id)).outcome s = (r, t))
    (undisturbed : Undisturbed r) : Documented t := by
  rcases documentOf_cases tag body id with ⟨f, refused⟩ | ⟨d, made, rfl, rfl, readable⟩
  · rw [perform, refused] at met
    cases met
    exact documented
  · have own : Entity.tagOf d = (Collection.mk (α := Document) d.tag).tag := rfl
    let change : Change := .write around.fresh (.ofEntity d)
    have body : ∀ fresh draft payload, change = .write fresh draft →
        draft.payload = .ok payload →
          (Decodable.decode? (α := Document) payload).isSome = true := by
      intro fresh draft payload same encoded
      obtain ⟨rfl, rfl⟩ := Change.write.inj same
      cases encoded
      exact readable
    rw [perform_write made, show perform.b around = Store.answer around.now from rfl] at met
    generalize done : (change.perform (Store.answer around.now)).outcome s = after
    obtain ⟨answer, u⟩ := after
    cases answer with
    | error e =>
      rw [Collection.write_refused own done] at met
      cases met
      refine change_documented documented change done (fun f failed => ?_) body
      cases failed
      exact undisturbed (.collection (.ledger (.store f))) rfl trivial
    | ok v =>
      obtain ⟨turns, session, documents⟩ := documented
      obtain ⟨w, written, _⟩ := Collection.write_decodes around.now around.fresh ⟨d.tag⟩
        session.logged own rfl readable done
      rw [written] at met
      cases met
      exact change_documented ⟨turns, session, documents⟩ change done
        (fun _ same => by cases same) body

theorem perform_documented (documented : Documented s)
    (met : (perform around settings format c).outcome s = (r, t))
    (undisturbed : Undisturbed r) (trimmed : c.states = true → s.Trimmed t) : Documented t := by
  have looked (reads : c.Reads) : Documented t := by
    have same : ((perform around settings format c).outcome s).2 = s := perform_reads c reads s
    rw [met] at same
    cases same
    exact documented
  cases c with
  | init force =>
    cases met
    exact documented
  | write => exact write_documented documented met undisturbed
  | read => exact looked trivial
  | history => exact looked trivial
  | fetch => exact looked trivial
  | delete tag id => exact (Changes.delete tag id).documented documented met undisturbed
  | restore tag id at_ => exact (Changes.restore tag id at_).documented documented met undisturbed
  | query sql args =>
    rw [perform, outcome_printed, Action.outcome_wrap] at met
    cases met
    have apart : ∀ c, Ledger.Request.query sql (args.map argumentValue) ≠ .operation (.change c) :=
      fun _ same => by cases same
    exact follows_documented documented (Turn.of_query_follows (trimmed rfl)) apart
  | reconcile dryRun =>
    cases dryRun with
    | true => exact looked trivial
    | false =>
      rw [perform, outcome_printed, Action.outcome_wrap] at met
      cases met
      have apart : ∀ c, Ledger.Operation.reconcile ≠ .change c :=
        fun _ same => by cases same
      exact follows_documented documented (Turn.of_operation_follows around.now apart s)
        fun c same => apart c (Ledger.Request.operation.inj same)

theorem setUp_stores (i : Invocation) (settings : Settings) (force : Bool) (d : Directory)
    (path : String) : (setUp i settings force d).2.store path = .empty ∨
      (setUp i settings force d).2.store path = d.store path := by
  unfold setUp
  dsimp only
  split
  · exact .inr rfl
  · next e written =>
    have kept : e.store path = .empty ∨ e.store path = d.store path := by
      split at written
      · exact Directory.store_put_text written path
      · cases written
        exact .inr rfl
    rcases onStore_stores _ _ _ e path with same | ⟨_, after⟩
    · rw [same]
      exact kept
    · rw [after]
      exact kept

theorem run_documented (documented : ∀ path, Documented (d.store path))
    (met : run around i d = (r, d')) (undisturbed : Undisturbed r)
    (trimmed : i.command.states = true → ∀ path, (d.store path).Trimmed (d'.store path))
    (path : String) : Documented (d'.store path) := by
  cases read : d.settings i.settings with
  | error words =>
    rw [run, read] at met
    cases met
    exact documented path
  | ok settings =>
    by_cases starts : ∃ force, i.command = .init force
    · obtain ⟨force, starts⟩ := starts
      have after : d' = (setUp i settings force d).2 := by
        rw [run, read, starts] at met
        exact (congrArg Prod.snd met).symm
      rcases setUp_stores i settings force d path with gone | same
      · rw [after, gone]
        exact documented_empty
      · rw [after, same]
        exact documented path
    · rw [run_performs (fun force same => starts ⟨force, same⟩) read] at met
      rcases onStore_stores (settings.store.withPath i.database) "opening ledger"
        (perform around settings i.format i.command) d path with same | ⟨answer, after⟩
      · rw [met] at same
        exact same ▸ documented path
      · rw [met] at answer after
        exact perform_documented (documented path) (Prod.ext answer.symm after.symm) undisturbed
          fun states => trimmed states path

theorem Served.documented (served : Served d) : ∀ path, Documented (d.store path) := by
  induction served with
  | fresh nothing =>
    intro path
    rw [nothing]
    exact documented_empty
  | command _ met undisturbed trimmed ih => exact run_documented ih met undisturbed trimmed
  | arranged _ kept ih =>
    intro path
    rcases kept path with gone | ⟨other, same⟩
    · rw [gone]
      exact documented_empty
    · rw [same]
      exact ih other

theorem undisturbed_of_ok (ok : r.isOk = true) : Undisturbed r := by
  rintro f rfl
  cases ok

/-- Command lines without a statement serve, also those that are refused. -/
theorem Served.line {args : List String} (served : Served d)
    (undisturbed : Undisturbed (runArguments around args d).1)
    (silent : (Invocation.ofArguments args).toOption.all (!·.command.states) = true) :
    Served (runArguments around args d).2 := by
  cases read : Invocation.ofArguments args with
  | error u =>
    rw [runArguments, read]
    exact served
  | ok i =>
    have ran : runArguments around args d = Command.run around i d := by rw [runArguments, read]
    rw [read] at silent
    have silent : i.command.states = false := Bool.not_eq_true' _ ▸ silent
    rw [ran] at undisturbed ⊢
    refine .command served (Prod.eta _).symm undisturbed fun states => ?_
    rw [silent] at states
    cases states

theorem served_empty : Served .empty :=
  .fresh fun path => by simp [Directory.store, Directory.file?, Directory.empty]

end RecordLedger.Command
