import RecordLedger.Command.Directory
import RecordLedger.Command.Invocation
import RecordLedger.Command.Output

/-!
Running commands in a working directory. A command prints all or nothing: it prints once its work
has succeeded.
-/

namespace RecordLedger.Command

inductive Failure
  | usage (u : Usage)
  /-- A failure of the command line itself, in its own words. -/
  | words (s : String)
  | ledger (e : Ledger.Error)
  | collection (e : Collection.Error)

def Failure.message : Failure → String
  | .usage u => u.message
  | .words s => s
  | .ledger e => e.message
  | .collection e => e.message

abbrev Action := RecordLedger.Action Failure Store

structure Surroundings where
  now : Instant
  fresh : RecordId

abbrev onLedger (a : Ledger.Action Store α) : Action α := a.wrap .ledger

abbrev onCollection (a : Collection.Action Store α) : Action α := a.wrap .collection

def inFormat (f : Format) (json : Json) (text : String) : String :=
  match f with
  | .json => lines [json.pretty]
  | .text => text

/-- Arguments of statements are JSON where they read as JSON, and texts otherwise. -/
def argumentValue (s : String) : Json := (Json.ofText? s).getD (.string s)

def documentOf (tag : Tag) (body : String) (id : Option RecordId) : Except Failure Document :=
  match Json.ofText? body with
  | none => .error (.words "body is not valid JSON")
  | some value =>
    match Document.ofValue tag value with
    | .error e => .error (.collection e)
    | .ok d => .ok (match id with
      | some id => d.withId id
      | none => d)

def perform (around : Surroundings) (settings : Settings) (format : Format) :
    Command → Action String
  | .init _ => return ""
  | .write tag body id => do
    let d ← documentOf tag body id
    let written ← onCollection (Collection.write b around.fresh ⟨tag⟩ d)
    return inFormat format written.toJson (writtenText written)
  | .read tag id => do
    let v ← onLedger (Ledger.read b id tag)
    let d : Document ← onLedger (Ledger.scan b v)
    let d := { d with tag := v.tag }
    return inFormat format (currentJson d v.isTombstone) (currentText d v.isTombstone)
  | .history id => do
    let found ← onLedger (Ledger.history b id)
    return inFormat format (versionsJson found.remaining) (versionsText found.remaining)
  | .delete tag id => do
    let v ← onLedger (Ledger.delete b id tag)
    return inFormat format (versionJson v) (deletedText v)
  | .restore tag id at_ => do
    let v ← onLedger (Ledger.restore b id tag at_)
    return inFormat format (versionJson v) (restoredText v at_)
  | .fetch tag first before => do
    let page ← onCollection
      (Collection.fetch b (Collection.mk (α := Document) tag) (first.getD settings.pageSize) before)
    return inFormat format (pageJson page) (pageText tag page)
  | .query sql args => do
    let found ← onLedger (Ledger.query b sql (args.map argumentValue))
    return inFormat format (versionsJson found.remaining) (versionsText found.remaining)
  | .reconcile dryRun => do
    let report ← onLedger (if dryRun then Ledger.audit b else Ledger.reconcile b)
    return inFormat format (reportJson dryRun report) (reportText dryRun report)
where
  b : Store.Backend Store := Store.answer around.now

/-- Opens the store that the settings name and works on it; a failure to open has the words
given. -/
def onStore (settings : StoreSettings) (refusal : String) (work : Action α) (d : Directory) :
    Except Failure α × Directory :=
  if Directory.isPrivate settings then ((work.outcome .empty).1, d)
  else
    let path := settings.path.getD ""
    match d.openStore? path with
    | none => (.error (.words refusal), d)
    | some (s, d) =>
      let (r, s) := work.outcome s
      (r, (d.put? path (.store s)).getD d)

/-- Writes the settings unless they are there already, and makes the store. -/
def setUp (i : Invocation) (settings : Settings) (force : Bool) (d : Directory) :
    Except Failure String × Directory :=
  let write := force || !d.has i.settings
  match if write then d.put? i.settings (.text settings.text) else some d with
  | none => (.error (.words ("writing " ++ i.settings)), d)
  | some d =>
    let store := settings.store.withPath i.database
    let database := store.path.getD ":memory:"
    onStore store "creating ledger" (do
      let stats := (← get).stats
      return inFormat i.format (initJson i.settings write database stats)
        (initText i.settings write database stats)) d

def run (around : Surroundings) (i : Invocation) (d : Directory) :
    Except Failure String × Directory :=
  match d.settings i.settings with
  | .error words => (.error (.words words), d)
  | .ok settings =>
    match i.command with
    | .init force => setUp i settings force d
    | command =>
      onStore (settings.store.withPath i.database) "opening ledger"
        (perform around settings i.format command) d

def storePath? (i : Invocation) (d : Directory) : Option String := do
  let settings ← (d.settings i.settings).toOption
  (settings.store.withPath i.database).path

def runArguments (around : Surroundings) (args : List String) (d : Directory) :
    Except Failure String × Directory :=
  match Invocation.ofArguments args with
  | .error u => (.error (.usage u), d)
  | .ok i => run around i d

end RecordLedger.Command
