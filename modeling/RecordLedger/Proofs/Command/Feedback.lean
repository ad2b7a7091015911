import RecordLedger.Proofs.Command.Atomic
import RecordLedger.Proofs.Command.Lines
import RecordLedger.Proofs.Command.Printed
import RecordLedger.Proofs.Command.Service
import RecordLedger.Proofs.Ledger.Onward
import RecordLedger.Proofs.Ledger.Restore

/-! What commands print, given back to them. A version is named by its printed tag, id and
timestamp, a place on a page by its printed cursor; both still name what they named when they were
printed. -/
namespace RecordLedger.Command

open Ledger (Session Turn Change Copied Restorable)

def Shows : Command → Prop
  | .history _ | .delete .. | .restore .. => True
  | _ => False

/-- Every line that restores by the printed texts of `v` succeeds and appends a copy of `v`. -/
def Revives (i : Invocation) (d : Directory) (v : Version) : Prop :=
  ∀ around front args, Chooses front i.database i.settings →
    Restores v.tag.text v.id.text v.timestamp.text args →
    ∃ out d' w, runArguments around (front ++ args) d = (.ok out, d') ∧
      Copied v w (opened i d) (opened i d')

/-- Every line that fetches behind a cursor succeeds and begins with the record of `next`. -/
def Continues (i : Invocation) (d : Directory) (tag : Tag) (token : String)
    (next : Store.IndexRow) : Prop :=
  ∀ around front args n, Chooses front i.database i.settings → 1 ≤ n → n ≤ Store.maxParameters →
    Fetches tag.text token (number n) args →
    ∃ format page e rest, (runArguments around (front ++ args) d).1 =
        .ok (inFormat format (pageJson page) (pageText tag page)) ∧
      page.edges = e :: rest ∧ e.cursor.id.text = next.id

structure FeedsBack (i : Invocation) (d : Directory) (out : String) : Prop where
  /-- Files with a name can be chosen again. -/
  chosen : i.database ≠ some "" → i.settings ≠ "" →
    Chooses (chosen i.database i.settings) i.database i.settings
  versions : i.command.Shows → ∃ printed, ∃ vs : List Version,
    Json.Form.ofText? out.toList = some printed ∧
    printed.listed = vs.map (fun v => (versionJson v).form) ∧
    ∀ v ∈ vs, v.row ∈ (opened i d).versions ∧
      Names (versionJson v).form v.tag.text v.id.text v.timestamp.text ∧
      (Ledger.Spare (opened i d) v → Revives i d v)
  page : ∀ tag first before, i.command = .fetch tag first before →
    ∃ printed edges, Json.Form.ofText? out.toList = some printed ∧
      printed.at? ["edges"] = some (.array edges) ∧
      printed.text? ["page_info", "end_cursor"] = edges.getLast?.bind (·.text? ["cursor"]) ∧
      ∀ token, printed.at? ["page_info", "has_previous_page"] = some (.bool true) →
        printed.text? ["page_info", "end_cursor"] = some token →
        ∃ front last next back id, (opened i d).indexRows tag = front ++ last :: next :: back ∧
          last.id = id.text ∧ token = (Cursor.mk id).token ∧ Continues i d tag token next

variable {around : Surroundings} {settings : Settings} {format : Format} {s t : Store}
  {c : Command} {i : Invocation} {d d' : Directory} {out : String} {tag : Tag} {id : RecordId}

/-- The store that a choice of database and settings leads to is in a file. -/
structure Filed (database : Option String) (config : String) (settings : Settings) (d : Directory)
    (s : Store) : Prop where
  read : d.settings config = .ok settings
  shared : Directory.isPrivate (settings.store.withPath database) = false
  file : ∃ path, (settings.store.withPath database).path = some path ∧
    d.file? path = some (.store s) ∧ d.Replaceable path

theorem Filed.opened (filed : Filed i.database i.settings settings d s) : opened i d = s := by
  obtain ⟨path, named, found, _⟩ := filed.file
  have path? : storePath? i d = some path := by
    rw [storePath?, filed.read]
    exact named
  rw [Command.opened, path?, Option.map_some, Option.getD_some, Directory.store, found]

theorem Filed.run (filed : Filed i.database i.settings settings d s) (around : Surroundings)
    (other : ∀ force, i.command ≠ .init force) :
    ∃ d', run around i d = (((perform around settings i.format i.command).outcome s).1, d') ∧
      Filed i.database i.settings settings d'
        ((perform around settings i.format i.command).outcome s).2 := by
  obtain ⟨path, named, found, free⟩ := filed.file
  obtain ⟨d', put, met⟩ := onStore_stored filed.shared named found free "opening ledger"
    (perform around settings i.format i.command)
  refine ⟨d', (run_performs other filed.read).trans met, ?_, filed.shared, path, named, ?_, ?_⟩
  · exact Directory.settings_put found put filed.read
  · rw [Directory.file?_put put, if_pos rfl]
  · exact Directory.replaceable_put put

theorem Filed.asked (filed : Filed i.database i.settings settings d s) (around : Surroundings)
    {front rest : List String} {name : String} (chooses : Chooses front i.database i.settings)
    (known : name ∈ names) (asks : Asks name rest c) (other : ∀ force, c ≠ .init force) :
    ∃ format d', runArguments around (front ++ name :: rest) d =
        (((perform around settings format c).outcome s).1, d') ∧
      Command.opened i d' = ((perform around settings format c).outcome s).2 := by
  obtain ⟨format, read⟩ := ofArguments_of_asks chooses known asks
  obtain ⟨d', met, after⟩ :=
    Filed.run (i := ⟨c, format, i.database, i.settings⟩) filed around other
  refine ⟨format, d', ?_, after.opened⟩
  rw [runArguments, read]
  exact met

theorem run_filed (sane : d.Sane) (other : ∀ force, i.command ≠ .init force)
    (met : run around i d = (.ok out, d')) :
    ∃ settings, (∃ t, (perform around settings i.format i.command).outcome .empty = (.ok out, t)) ∨
      ∃ path t, (perform around settings i.format i.command).outcome (d.store path) = (.ok out, t) ∧
        Filed i.database i.settings settings d' t := by
  cases read : d.settings i.settings with
  | error words =>
    rw [run, read] at met
    cases met
  | ok settings =>
    refine ⟨settings, ?_⟩
    have done := (run_performs other read).symm.trans met
    rcases onStore_cases sane (settings.store.withPath i.database) "opening ledger"
      (perform around settings i.format i.command) with ⟨_, met'⟩ | met' |
      ⟨shared, path, _, named, met', _, _⟩
    · have answer := congrArg Prod.fst (met'.symm.trans done)
      exact .inl ⟨_, Prod.ext answer rfl⟩
    · cases met'.symm.trans done
    · have answer := congrArg Prod.fst (met'.symm.trans done)
      by_cases kept : ∃ s, d.file? path = some (.store s)
      · obtain ⟨s, found⟩ := kept
        have same : d.store path = s := by rw [Directory.store, found]
        have filed : Filed i.database i.settings settings d s :=
          ⟨read, shared, path, named, found, Directory.replaceable_of_file sane found⟩
        obtain ⟨e, ran, after⟩ := filed.run around other
        obtain ⟨succeeded, rfl⟩ := Prod.mk.inj (ran.symm.trans met)
        exact .inr ⟨path, _, by rw [same]; exact Prod.ext succeeded rfl, after⟩
      · have empty : d.store path = .empty := by
          unfold Directory.store
          split
          · next s found => exact absurd ⟨s, found⟩ kept
          · rfl
        rw [empty] at answer
        exact .inl ⟨_, Prod.ext answer rfl⟩

/-- Nothing can be deleted or restored in an empty store. -/
theorem Changes.due_nil {change : Change} {text : Version → String}
    (changes : Changes c change text) : ∃ e, change.due [] = .error e := by
  cases changes <;> exact ⟨_, rfl⟩

/-- What a command prints of a record is in the store that it leaves, which is not an empty one, and
can be restored by its timestamp. -/
theorem perform_shows (documented : Documented s) (shows : c.Shows)
    (met : (perform around settings .json c).outcome s = (.ok out, t)) :
    ∃ json text vs, out = inFormat .json json text ∧ Prints json vs ∧
      ∀ v ∈ vs, s ≠ .empty ∧ v.row ∈ t.versions ∧ Restorable v t := by
  obtain ⟨turns, session, _⟩ := documented
  have changed {change : Change} {text : Version → String} (changes : Changes c change text) :
      ∃ json text vs, out = inFormat .json json text ∧ Prints json vs ∧
        ∀ v ∈ vs, s ≠ .empty ∧ v.row ∈ t.versions ∧ Restorable v t := by
    rw [changes.perform_eq] at met
    obtain ⟨printed, left⟩ := Prod.mk.inj met
    obtain ⟨v, accepted, text⟩ := printed_ok printed
    have performed : (change.perform (Store.answer around.now)).outcome s = (.ok v, t) :=
      Prod.ext accepted left
    let e : Turn := ⟨around.now, .operation (.change change), .ok v, t⟩
    have follows : e.Follows s := ⟨performed, fun _ _ _ => nofun⟩
    have logged := (session.snoc follows).logged
    have member : v ∈ Ledger.log (turns ++ [e]) := by
      rw [Ledger.log_snoc]
      exact List.mem_append_right _ List.mem_cons_self
    refine ⟨_, _, [v], text.symm, .one v, fun w one => ?_⟩
    obtain rfl := List.mem_singleton.mp one
    refine ⟨?_, logged.row_mem member, .of_mem logged member⟩
    rintro rfl
    have nothing : Ledger.log turns = [] := List.map_eq_nil_iff.mp session.logged.rows.symm
    cases Change.changed session.logged performed nofun with
    | appended _ due =>
      obtain ⟨e, refused⟩ := changes.due_nil
      rw [nothing, refused] at due
      cases due
  cases c with
  | history id =>
    rw [perform, outcome_printed, Action.outcome_wrap] at met
    have found := Ledger.history_logged session.logged around.now id
    rw [show perform.b around = Store.answer around.now from rfl, found] at met
    cases met
    refine ⟨_, _, _, rfl, .many _, fun v listed => ?_⟩
    have member := (mem_entries.mp (List.mem_reverse.mp listed)).1
    have stored := session.logged.row_mem member
    refine ⟨?_, stored, .of_mem session.logged member⟩
    rintro rfl
    cases stored
  | delete tag id => exact changed (.delete tag id)
  | restore tag id at_ => exact changed (.restore tag id at_)
  | _ => exact shows.elim

theorem Filed.revives (filed : Filed i.database i.settings settings d s) {v : Version}
    (restorable : Restorable v s) (dated : Instant.FourDigit v.timestamp.micros)
    (spare : Ledger.Spare s v) : Revives i d v := by
  intro around front args chooses line
  obtain ⟨rest, rfl, asks⟩ := asks_restore line dated
  obtain ⟨format, d', met, kept⟩ := filed.asked around chooses (by decide) asks fun _ => nofun
  obtain ⟨w, t, restored, copied⟩ := restorable.succeeds around.now spare
  have performed : (perform around settings format (.restore v.tag v.id v.timestamp)).outcome s =
      (.ok (inFormat format (versionJson w) (restoredText w v.timestamp)), t) := by
    rw [(Changes.restore v.tag v.id v.timestamp).perform_eq]
    dsimp only [Change.perform]
    rw [restored]
    rfl
  rw [performed] at met kept
  exact ⟨_, d', w, met, by rw [filed.opened, kept]; exact copied⟩

theorem valued_of_documents {past : List Version} (documents : Documents past) {v : Version}
    (member : v ∈ past) : ∃ x : Document, Collection.value? past v = some x := by
  obtain ⟨body, decoded⟩ := Option.isSome_iff_exists.mp (documents v member)
  exact ⟨_, Collection.value?_of_decode decoded⟩

section Pages

variable {turns : List Turn} (session : Session turns s) (documents : Documents (Ledger.log turns))
include session documents

theorem valued_page {now : Instant} {k : Nat} {before : Option RecordId} {page : Ledger.ResultSet}
    (met : (Ledger.fetch (Store.answer now) tag k before).outcome s = (.ok page, s)) :
    ∀ v ∈ page.remaining, ∃ x : Document, Collection.value? (Ledger.log turns) v = some x :=
  fun v member => valued_of_documents documents (Ledger.fetch_mem session.logged met v member)

/-- A page that is printed shows the records of a page of the ledger, each with its cursor. -/
theorem perform_pages {first : Option Nat} {before : Option Cursor}
    (met : (perform around settings .json (.fetch tag first before)).outcome s = (.ok out, t)) :
    ∃ k anchor page conn,
      (Ledger.fetch (Store.answer around.now) tag k anchor).outcome s = (.ok page, s) ∧
      out = inFormat .json (pageJson conn) (pageText tag conn) ∧
      conn.page = page.page ∧ conn.edges.map (·.cursor.id) = page.remaining.map (·.id) := by
  obtain ⟨anchor, rfl⟩ : ∃ anchor : Option RecordId, before = anchor.map Cursor.mk :=
    ⟨before.map (·.id), by cases before <;> rfl⟩
  rw [perform, outcome_printed, Action.outcome_wrap] at met
  obtain ⟨conn, shown, text⟩ := printed_ok (congrArg Prod.fst met)
  obtain ⟨page, fetched, rfl⟩ := Collection.fetch_connected session.logged
    (fun page => valued_page session documents) (Prod.ext shown rfl)
  exact ⟨_, anchor, page, _, fetched, text.symm, rfl,
    Collection.connected_ids (valued_page session documents fetched)⟩

theorem Filed.continues (filed : Filed i.database i.settings settings d s)
    {front back : List Store.IndexRow} {last next : Store.IndexRow}
    (shape : s.indexRows tag = front ++ last :: next :: back) (names : last.id = id.text) :
    Continues i d tag (Cursor.mk id).token next := by
  intro around front args n chooses positive few line
  obtain ⟨rest, rfl, asks⟩ := asks_fetch line (Nat.le_trans few (by decide))
  obtain ⟨format, d', met, kept⟩ := filed.asked around chooses (by decide) asks fun _ => nofun
  obtain ⟨page, v, others, fetched, records, first⟩ :=
    Ledger.fetch_next session around.now shape names positive few
  have valued := valued_page session documents fetched
  let conn : Collection.Connection Document := Collection.connected (Ledger.log turns) page
  have performed : (perform around settings format (.fetch tag (some n) (some ⟨id⟩))).outcome s =
      (.ok (inFormat format (pageJson conn) (pageText tag conn)), s) := by
    have shown := Collection.fetch_logged (c := ⟨tag⟩) session.logged around.now fetched valued
    rw [Option.map_some] at shown
    rw [perform, outcome_printed, Action.outcome_wrap, Option.getD_some,
      show perform.b around = Store.answer around.now from rfl, shown]
    rfl
  have ids := Collection.connected_ids valued
  rw [performed] at met
  rw [records, List.map_cons] at ids
  obtain ⟨e, edges, shape, same, _⟩ := List.map_eq_cons_iff.mp ids
  exact ⟨format, conn, e, edges, congrArg Prod.fst met, shape, by rw [same, first]⟩

end Pages

theorem feedsBack_versions (documented : Documented s) (shows : i.command.Shows)
    (met : (perform around settings .json i.command).outcome s = (.ok out, t))
    (filed : s ≠ .empty → Filed i.database i.settings settings d t)
    (years : ∀ r ∈ (opened i d).versions, Instant.FourDigit r.timestamp) :
    ∃ printed, ∃ vs : List Version, Json.Form.ofText? out.toList = some printed ∧
      printed.listed = vs.map (fun v => (versionJson v).form) ∧
      ∀ v ∈ vs, v.row ∈ (opened i d).versions ∧
        Names (versionJson v).form v.tag.text v.id.text v.timestamp.text ∧
        (Ledger.Spare (opened i d) v → Revives i d v) := by
  obtain ⟨json, text, vs, rfl, prints, shown⟩ := perform_shows documented shows met
  refine ⟨json.form, vs, ofText?_printed json text, prints.listed, fun v listed => ?_⟩
  obtain ⟨filled, stored, restorable⟩ := shown v listed
  have filed := filed filled
  have kept : opened i d = t := filed.opened
  rw [kept] at years ⊢
  have dated : Instant.FourDigit v.timestamp.micros := years v.row stored
  exact ⟨stored, versionJson_names v, filed.revives restorable dated⟩

theorem feedsBack_page (documented : Documented s) {first : Option Nat} {before : Option Cursor}
    (met : (perform around settings .json (.fetch tag first before)).outcome s = (.ok out, t))
    (filed : s ≠ .empty → Filed i.database i.settings settings d t) :
    ∃ printed edges, Json.Form.ofText? out.toList = some printed ∧
      printed.at? ["edges"] = some (.array edges) ∧
      printed.text? ["page_info", "end_cursor"] = edges.getLast?.bind (·.text? ["cursor"]) ∧
      ∀ token, printed.at? ["page_info", "has_previous_page"] = some (.bool true) →
        printed.text? ["page_info", "end_cursor"] = some token →
        ∃ front last next back id, (opened i d).indexRows tag = front ++ last :: next :: back ∧
          last.id = id.text ∧ token = (Cursor.mk id).token ∧ Continues i d tag token next := by
  obtain ⟨turns, session, documents⟩ := documented
  have same : ((perform around settings .json (.fetch tag first before)).outcome s).2 = s :=
    perform_reads (.fetch tag first before) trivial s
  rw [met] at same
  obtain rfl : t = s := same
  obtain ⟨k, anchor, page, conn, fetched, rfl, info, ids⟩ := perform_pages session documents met
  have ends : conn.page.endId = (conn.edges.map (·.cursor.id)).getLast? := by
    rw [info, Ledger.fetch_endId session fetched, ids]
  refine ⟨(pageJson conn).form, _, ofText?_printed _ _, pageJson_edges conn, ?_,
    fun token older named => ?_⟩
  · rw [pageJson_end, ends, List.getLast?_map, List.getLast?_map]
    cases conn.edges.getLast? with
    | none => rfl
    | some e => exact (edgeJson_cursor e).symm
  · rw [pageJson_older] at older
    rw [pageJson_end] at named
    obtain ⟨id, last_id, rfl⟩ := Option.map_eq_some_iff.mp named
    obtain ⟨front, last, next, back, shape, names⟩ := Ledger.fetch_end session fetched
      (by rw [← info]; simpa using older) (by rw [← info]; exact last_id)
    have filled : t ≠ .empty := by
      rintro rfl
      exact absurd shape.symm (by simp [Store.indexRows, Store.empty, Sort.sort])
    have filed := filed filled
    have kept : opened i d = t := filed.opened
    rw [kept]
    exact ⟨front, last, next, back, id, shape, names, rfl,
      filed.continues session documents shape names⟩

/-- What a command has printed as JSON names what it named then: the versions of a record can be
restored, and behind the end of a page lies the next record. -/
theorem printed_feeds_back (served : Served d) (sane : d.Sane) (json : i.format = .json)
    (met : run around i d = (.ok out, d'))
    (years : ∀ r ∈ (opened i d').versions, Instant.FourDigit r.timestamp) : FeedsBack i d' out := by
  by_cases starts : ∃ force, i.command = .init force
  · obtain ⟨force, starts⟩ := starts
    refine ⟨chooses_chosen, fun shows => ?_, fun tag first before fetches => ?_⟩
    · rw [starts] at shows
      exact shows.elim
    · rw [starts] at fetches
      cases fetches
  · obtain ⟨settings, worked⟩ := run_filed sane (fun force same => starts ⟨force, same⟩) met
    obtain ⟨s, t, documented, performed, filed⟩ : ∃ s t, Documented s ∧
        (perform around settings .json i.command).outcome s = (.ok out, t) ∧
        (s ≠ .empty → Filed i.database i.settings settings d' t) := by
      rw [json] at worked
      rcases worked with ⟨t, done⟩ | ⟨path, t, done, filed⟩
      · exact ⟨.empty, t, documented_empty, done, fun filled => absurd rfl filled⟩
      · exact ⟨d.store path, t, served.documented path, done, fun _ => filed⟩
    refine ⟨chooses_chosen, fun shows => feedsBack_versions documented shows performed filed years,
      fun tag first before fetches => ?_⟩
    rw [fetches] at performed
    exact feedsBack_page documented performed filed

def noting (around : Surroundings) : Directory :=
  let first := runArguments around ["write", "app.note", "\x7b\"a\":1\x7d"] .empty
  let second := runArguments around
    ["write", "app.note", "\x7b\"b\":2\x7d", "--id", "018f3a2e-0000-7000-8000-000000000001"] first.2
  second.2

theorem noted_feeds_back :
    let around : Surroundings := ⟨⟨1700000000000000, rfl⟩, default⟩
    let note : Tag := ⟨"app.note", by decide⟩
    let deletion : Invocation := ⟨.delete note default, .json, none, "vrl.toml"⟩
    let page : Invocation := ⟨.fetch note (some 1) none, .json, none, "vrl.toml"⟩
    let d := noting around
    Served d ∧ d.Sane ∧
      (∃ out, run around deletion d = (.ok out, (run around deletion d).2) ∧
        FeedsBack deletion (run around deletion d).2 out) ∧
      ∃ out, run around page d = (.ok out, (run around page d).2) ∧
        FeedsBack page (run around page d).2 out := by
  intro around note deletion page d
  have served : Served d :=
    (served_empty.line (undisturbed_of_ok (by decide +kernel)) (by decide +kernel)).line
      (undisturbed_of_ok (by decide +kernel)) (by decide +kernel)
  have sane : d.Sane := by
    unfold Directory.Sane
    decide +kernel
  have printed {i : Invocation} (ok : (run around i d).1.isOk = true) :
      ∃ out, run around i d = (.ok out, (run around i d).2) := by
    cases answer : (run around i d).1 with
    | error f =>
      rw [answer] at ok
      cases ok
    | ok out => exact ⟨out, Prod.ext answer rfl⟩
  obtain ⟨deleted, met⟩ := printed (i := deletion) (by decide +kernel)
  obtain ⟨fetched, met'⟩ := printed (i := page) (by decide +kernel)
  exact ⟨served, sane,
    ⟨deleted, met, printed_feeds_back served sane rfl met (by decide +kernel)⟩,
    fetched, met', printed_feeds_back served sane rfl met' (by decide +kernel)⟩

/-- A tag that looks like options is taken for options, unless two hyphens stand before it. -/
theorem hyphened_refused :
    let around : Surroundings := ⟨⟨1700000000000000, rfl⟩, default⟩
    let v : Version := ⟨1, default, ⟨"-x", by decide⟩, "\x7b\"a\":1\x7d", around.now⟩
    let written := runArguments around ["write", "--", v.tag.text, v.payload] .empty
    let shown := runArguments around ["--format=json", "history", v.id.text] written.2
    Served shown.2 ∧ shown.1.toOption = some (inFormat .json (versionsJson [v]) "") ∧
      (∀ r ∈ (shown.2.store "vrl.db").versions, Instant.FourDigit r.timestamp) ∧
      runArguments around ["restore", v.tag.text, v.id.text, "--at", v.timestamp.text] shown.2 =
        (.error (.usage .unknownArgument), shown.2) := by
  intro around v written shown
  have served : Served shown.2 :=
    (served_empty.line (undisturbed_of_ok (by decide +kernel)) (by decide +kernel)).line
      (undisturbed_of_ok (by decide +kernel)) (by decide +kernel)
  have tagged : v.tag.text = "-x" := rfl
  have named : v.id.text = "00000000-0000-0000-0000-000000000000" := by decide +kernel
  have dated : v.timestamp.text = "2023-11-14T22:13:20.000000Z" := by decide +kernel
  have refused : Invocation.ofArguments
      ["restore", v.tag.text, v.id.text, "--at", v.timestamp.text] = .error .unknownArgument := by
    rw [tagged, named, dated]
    rfl
  exact ⟨served, by decide +kernel, by decide +kernel, by rw [runArguments, refused]⟩

end RecordLedger.Command
