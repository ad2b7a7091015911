import Mathlib.Data.List.Basic
import RecordLedger.Proofs.Store.Append
import RecordLedger.Proofs.Store.Lookup

/-! How a store lists its index and reads its versions: the rows of a tag by decreasing
numbers, the ids below a number, and the latest versions of given ids. -/
namespace RecordLedger

theorem Word.signed_unsigned {n : Int} (lower : Word.minSigned ≤ n) (upper : n ≤ Word.maxSigned) :
    Word.signed (Word.unsigned n) = n := by
  simp only [signed, unsigned, minSigned, maxSigned] at *
  omega

theorem Word.unsigned_signed {n : Nat} (fits : n ≤ Word.maxUnsigned) :
    Word.unsigned (Word.signed n) = n := by
  simp only [signed, unsigned, maxSigned, maxUnsigned] at *
  omega

theorem Word.unsigned_le (n : Int) : Word.unsigned n ≤ Word.maxUnsigned := by
  simp only [unsigned, maxUnsigned]
  omega

def Version.row (v : Version) : Store.VersionRow :=
  ⟨Word.signed v.sequence, v.id.text, v.tag.text, v.payload, v.timestamp.micros⟩

namespace Store

variable {s : Store} {tag : Tag} {id : RecordId} {row : IndexRow}

theorem mem_indexRows : row ∈ s.indexRows tag ↔ row ∈ s.index ∧ row.tag = tag.text := by
  simp [indexRows]

theorem Sound.indexRows_eq (sound : Sound s) (tag : Tag) :
    s.indexRows tag = (s.index.filter (·.tag == tag.text)).reverse := by
  refine Sort.sort_eq_reverse _ ?_
  refine ((List.pairwise_map.mp sound.index.increasing).filter _).imp fun less => ?_
  rw [decide_eq_false_iff_not]
  omega

theorem Formed.indexRows_decreasing (formed : Formed s) (tag : Tag) :
    (s.indexRows tag).Pairwise fun a b => b.sequence < a.sequence := by
  have sorted : (s.indexRows tag).Pairwise fun a b => decide (b.sequence ≤ a.sequence) = true :=
    Sort.sort_sorted (by simp only [decide_eq_true_eq]; omega)
      (by simp only [decide_eq_true_eq]; omega) _
  have apart : (s.indexRows tag).Pairwise fun a b => a.sequence ≠ b.sequence :=
    ((Sort.sort_perm _ _).pairwise_iff fun other => other.symm).mpr (formed.index.filter _)
  refine (sorted.and apart).imp fun ⟨ordered, other⟩ => ?_
  have := of_decide_eq_true ordered
  omega

theorem Sound.index_bounds (sound : Sound s) (stored : row ∈ s.index) :
    1 ≤ row.sequence ∧ row.sequence ≤ s.lastIndex ∧ row.sequence ≤ Word.maxSigned :=
  sound.index.within stored

theorem Formed.indexRows_length (formed : Formed s) (tag : Tag) :
    ((s.indexRows tag).length : Int) ≤ Word.maxSigned := by
  have fewer := length_le_of_increasing ((s.indexRows tag).reverse.map (·.sequence)) 0
    Word.maxSigned (List.pairwise_map.mpr (List.pairwise_reverse.mpr
      (formed.indexRows_decreasing tag))) ?_ ?_ (by decide)
  · simpa using fewer
  all_goals
    intro n member
    obtain ⟨row, listed, rfl⟩ := List.mem_map.mp member
    have := formed.bounds row (mem_indexRows.mp (List.mem_reverse.mp listed)).1
    omega

def rowsBelow (s : Store) (tag : Tag) (bound : Int) : List IndexRow :=
  (s.indexRows tag).filter fun row => decide (row.sequence < bound)

theorem mem_rowsBelow {bound : Int} : row ∈ s.rowsBelow tag bound ↔
    row ∈ s.index ∧ row.tag = tag.text ∧ row.sequence < bound := by
  rw [rowsBelow, List.mem_filter, mem_indexRows, decide_eq_true_eq, and_assoc]

theorem Formed.rowsBelow_decreasing (formed : Formed s) (tag : Tag) (bound : Int) :
    (s.rowsBelow tag bound).Pairwise fun a b => b.sequence < a.sequence :=
  (formed.indexRows_decreasing tag).filter _

/-- Behind a row of the tag lie the rows after it, above it those in front. -/
theorem Formed.around_row (formed : Formed s) {front back : List IndexRow}
    (shape : s.indexRows tag = front ++ row :: back) :
    s.rowsBelow tag row.sequence = back ∧
      ((s.indexRows tag).countP fun other => decide (row.sequence < other.sequence)) =
        front.length := by
  have decreasing := formed.indexRows_decreasing tag
  rw [shape] at decreasing
  obtain ⟨_, rest, above⟩ := List.pairwise_append.mp decreasing
  have below := (List.pairwise_cons.mp rest).1
  have above : ∀ other ∈ front, row.sequence < other.sequence := fun other member =>
    above other member row List.mem_cons_self
  rw [rowsBelow, shape]
  constructor
  · have front_out : front.filter (fun other => decide (other.sequence < row.sequence)) = [] :=
      List.filter_eq_nil_iff.mpr fun other member => by have := above other member; simp; omega
    have back_in : back.filter (fun other => decide (other.sequence < row.sequence)) = back :=
      List.filter_eq_self.mpr fun other member => decide_eq_true (below other member)
    rw [List.filter_append, front_out, List.filter_cons_of_neg (by simp), back_in,
      List.nil_append]
  · have front_in : front.countP (fun other => decide (row.sequence < other.sequence)) =
        front.length := List.countP_eq_length.mpr fun other member =>
      decide_eq_true (above other member)
    have back_out : back.countP (fun other => decide (row.sequence < other.sequence)) = 0 :=
      List.countP_eq_zero.mpr fun other member => by have := below other member; simp; omega
    rw [List.countP_append, front_in, List.countP_cons_of_neg (by simp), back_out, Nat.add_zero]

theorem indexEntry_ok (formed : Formed s) (stored : row ∈ s.index) (names : row.id = id.text)
    (tagged : row.tag = tag.text) :
    s.indexEntry id tag = .ok (some ⟨Word.unsigned row.sequence, id, tag⟩) := by
  have found : (s.index.find? fun r => r.id == id.text && r.tag == tag.text) = some row := by
    refine find?_eq_some stored (by simp [names, tagged]) fun other listed fields => ?_
    simp only [Bool.and_eq_true, beq_iff_eq] at fields
    exact formed.keyed.row_unique listed stored (fields.1.trans names.symm)
  rw [indexEntry, found]
  simp only [IndexRow.decode_ok names.symm tagged.symm]
  rfl

/-- A limit beyond the signed range is no limit, and no relation has more rows than that. One beyond
the words wraps. -/
theorem indexIdsBefore_taken (formed : Formed s) (tag : Tag) (anchor first : Nat) :
    ∃ ids k, (first ≤ Word.maxUnsigned → k = first) ∧ s.indexIdsBefore tag anchor first = .ok ids ∧
      ids.map (·.text) = ((s.rowsBelow tag (Word.signed anchor)).take k).map (·.id) := by
  have fewer : (s.rowsBelow tag (Word.signed anchor)).length ≤ (s.indexRows tag).length :=
    List.length_filter_le _ _
  have total := formed.indexRows_length tag
  obtain ⟨k, whole, limited⟩ : ∃ k, (first ≤ Word.maxUnsigned → k = first) ∧
      (if Word.signed first < 0 then s.rowsBelow tag (Word.signed anchor)
        else (s.rowsBelow tag (Word.signed anchor)).take (Word.signed first).toNat) =
      (s.rowsBelow tag (Word.signed anchor)).take k := by
    by_cases small : (first : Int) ≤ Word.maxSigned
    · refine ⟨first, fun _ => rfl, ?_⟩
      rw [Word.signed_of_le small, if_neg (by omega), Int.toNat_natCast]
    · by_cases negative : Word.signed first < 0
      · refine ⟨first, fun _ => rfl, ?_⟩
        rw [if_pos negative, List.take_of_length_le (by omega)]
      · refine ⟨_, fun fits => absurd ?_ negative, if_neg negative⟩
        simp only [Word.signed, Word.maxSigned, Word.maxUnsigned] at *
        omega
  unfold indexIdsBefore
  dsimp only
  rw [← rowsBelow, limited]
  obtain ⟨ids, met, selected⟩ : ∃ ids : List RecordId,
      ((s.rowsBelow tag (Word.signed anchor)).take k).mapM (fun r => readId r.sequence r.id) =
        .ok ids ∧
      ids.map (·.text) = ((s.rowsBelow tag (Word.signed anchor)).take k).map (·.id) := by
    refine mapM_ok _ _ _ fun row member => ?_
    obtain ⟨stored, _⟩ := mem_rowsBelow.mp (List.mem_of_mem_take member)
    obtain ⟨id, idText⟩ := formed.ids row stored
    exact ⟨id, by rw [← idText, readId_text], idText⟩
  exact ⟨ids, k, whole, met, selected⟩

theorem fetch_undated {r : VersionRow} (undated : Word.fitsSigned r.timestamp = false) :
    r.fetch = .error .columnType := by
  rw [VersionRow.fetch, readTimestamp, Instant.ofMicros?, dif_neg (by simp [undated])]
  rfl

theorem fetch_dated {r : VersionRow} (dated : Word.fitsSigned r.timestamp = true) :
    r.fetch = .ok ⟨r, ⟨r.timestamp, dated⟩⟩ := by
  rw [VersionRow.fetch, readTimestamp, Instant.ofMicros?, dif_pos dated]
  rfl

theorem fetch_cases {r : VersionRow} {f : Fetched} (met : r.fetch = .ok f) :
    f.row = r ∧ Word.fitsSigned r.timestamp = true := by
  cases fits : Word.fitsSigned r.timestamp with
  | false => rw [fetch_undated fits] at met; cases met
  | true =>
    rw [fetch_dated fits] at met
    cases met
    exact ⟨rfl, rfl⟩

/-- Decoding a row whose id is spelled reads its tag, or fails with what is wrong with the tag. -/
theorem decode_cases (f : Fetched) {id : RecordId} (names : id.text = f.row.id) :
    (∃ tag, Tag.parse f.row.tag = .ok tag ∧
        f.decode = .ok ⟨Word.unsigned f.row.sequence, id, tag, f.row.payload, f.timestamp⟩) ∨
      ∃ fault, Tag.parse f.row.tag = .error fault ∧
        f.decode = .error (.corruptRow f.row.sequence fault.message) := by
  rw [Fetched.decode, ← names, readId_text, readTag]
  cases Tag.parse f.row.tag with
  | ok tag => exact .inl ⟨tag, rfl, rfl⟩
  | error fault => exact .inr ⟨fault, rfl, rfl⟩

theorem decode_word {f : Fetched} {v : Version} (decoded : f.decode = .ok v) :
    v.sequence ≤ Word.maxUnsigned := by
  unfold Fetched.decode at decoded
  cases id : readId f.row.sequence f.row.id with
  | error e => rw [id] at decoded; cases decoded
  | ok _ =>
    cases tag : readTag f.row.sequence f.row.tag with
    | error e => rw [id, tag] at decoded; cases decoded
    | ok _ =>
      rw [id, tag] at decoded
      cases decoded
      exact Word.unsigned_le _

theorem readVersions_words {rows : List VersionRow} {vs : List Version}
    (read : readVersions rows = .ok vs) : ∀ v ∈ vs, v.sequence ≤ Word.maxUnsigned := by
  intro v member
  rw [readVersions] at read
  cases fetched : rows.mapM VersionRow.fetch with
  | error e => rw [fetched] at read; cases read
  | ok all =>
    rw [fetched] at read
    obtain ⟨vs', decoded, _, back⟩ | ⟨_, _, _, _, stopped⟩ := mapM_cases Fetched.decode all
    · obtain rfl : vs' = vs := Except.ok.inj (decoded.symm.trans read)
      obtain ⟨f, _, met⟩ := back v member
      exact decode_word met
    · cases stopped.symm.trans read

theorem readVersions_dated {rows : List VersionRow} {vs : List Version}
    (read : readVersions rows = .ok vs) : ∀ r ∈ rows, Word.fitsSigned r.timestamp = true := by
  intro r member
  rw [readVersions] at read
  obtain ⟨_, _, each, _⟩ | ⟨_, _, _, _, stopped⟩ := mapM_cases VersionRow.fetch rows
  · obtain ⟨f, _, met⟩ := each r member
    exact (fetch_cases met).2
  · rw [stopped] at read
    cases read

/-- Rows with dates and spelled texts are read as versions of those rows. -/
theorem readVersions_ok (rows : List VersionRow)
    (words : ∀ r ∈ rows, Word.minSigned ≤ r.sequence ∧ r.sequence ≤ Word.maxSigned)
    (dated : ∀ r ∈ rows, Word.fitsSigned r.timestamp = true)
    (spelled : ∀ r ∈ rows, Spelled r.id r.tag) :
    ∃ vs, readVersions rows = .ok vs ∧ vs.map Version.row = rows := by
  obtain ⟨fetched, all, same⟩ := mapM_ok (f := VersionRow.fetch)
    (fun f => (f.row, f.timestamp.micros)) (fun r => (r, r.timestamp)) rows (by
      intro r member
      have read := (readTimestamp_eq_ok_iff r.timestamp ⟨r.timestamp, dated r member⟩).mpr rfl
      exact ⟨⟨r, ⟨r.timestamp, dated r member⟩⟩, by rw [VersionRow.fetch, read]; rfl, rfl⟩)
  obtain ⟨vs, decoded, read⟩ := mapM_ok (f := Fetched.decode) Version.row
    (fun f => { f.row with timestamp := f.timestamp.micros }) fetched (by
      intro f member
      have among := List.mem_map_of_mem (f := fun f : Fetched => (f.row, f.timestamp.micros)) member
      rw [same] at among
      obtain ⟨r, listed, fields⟩ := List.mem_map.mp among
      obtain ⟨rfl, _⟩ := Prod.mk.inj fields
      have bounds := words _ listed
      obtain ⟨id, tag, idText, tagText⟩ := spelled _ listed
      refine ⟨⟨Word.unsigned f.row.sequence, id, tag, f.row.payload, f.timestamp⟩, ?_, ?_⟩
      · simp only [Fetched.decode, ← idText, ← tagText, readId_text, readTag_of_text]
        rfl
      · simp only [Version.row, Word.signed_unsigned bounds.1 bounds.2, idText, tagText])
  refine ⟨vs, by rw [readVersions, all]; exact decoded, ?_⟩
  rw [read]
  have fields := congrArg (List.map fun p : VersionRow × Int => { p.1 with timestamp := p.2 }) same
  simpa [List.map_map, Function.comp_def] using fields

def Legible (s : Store) (id : String) : Prop :=
  ∀ r, Latest s id r → Word.fitsSigned r.timestamp = true

def Readable (s : Store) (id : String) : Prop :=
  ∀ r, Latest s id r → Word.fitsSigned r.timestamp = true ∧ ∃ tag : Tag, tag.text = r.tag

theorem Legible.readable {id : String} (sound : Sound s) (legible : Legible s id) :
    Readable s id := by
  intro r latest
  obtain ⟨_, tag, _, tagText⟩ := sound.versionTexts r latest.stored
  exact ⟨legible r latest, tag, tagText⟩

/-- The rows that are read for a list of ids, in the order of reading. -/
def askedRows (s : Store) (ids : List RecordId) : List VersionRow :=
  Sort.sort (fun a b => decide (a.id ≤ b.id)) (Sort.sort bySequence
    (s.versions.filter fun r => ids.any (·.text == r.id) && s.isLatest r))

theorem askedRows_perm (s : Store) (ids : List RecordId) : (s.askedRows ids).Perm
    (s.versions.filter fun r => ids.any (·.text == r.id) && s.isLatest r) :=
  (Sort.sort_perm _ _).trans (Sort.sort_perm _ _)

theorem mem_askedRows (keyed : Keyed s) {ids : List RecordId} {r : VersionRow} :
    r ∈ s.askedRows ids ↔ ∃ id ∈ ids, Latest s id.text r := by
  rw [(askedRows_perm s ids).mem_iff]
  simp only [List.mem_filter, Bool.and_eq_true, List.any_eq_true, beq_iff_eq]
  constructor
  · rintro ⟨stored, ⟨id, member, names⟩, latest⟩
    exact ⟨id, member, names ▸ (isLatest_iff keyed stored).mp latest⟩
  · rintro ⟨id, member, latest⟩
    exact ⟨latest.stored, ⟨id, member, latest.names.symm⟩,
      (isLatest_iff keyed latest.stored).mpr (latest.names.symm ▸ latest)⟩

theorem latestVersionsIn_few {ids : List RecordId} (few : ids.length ≤ maxParameters) :
    s.latestVersionsIn ids = readVersions (s.askedRows ids) :=
  if_neg (Nat.not_lt.mpr few)

def Worded (s : Store) : Prop :=
  ∀ r ∈ s.versions, Word.minSigned ≤ r.sequence ∧ r.sequence ≤ Word.maxSigned

theorem latestVersionsIn_ok (keyed : Keyed s) (words : Worded s) (ids : List RecordId)
    (readable : ∀ id ∈ ids, Readable s id.text) (few : ids.length ≤ maxParameters) :
    ∃ vs, s.latestVersionsIn ids = .ok vs ∧
      ∀ r, r ∈ vs.map Version.row ↔ ∃ id ∈ ids, Latest s id.text r := by
  obtain ⟨vs, read, rows⟩ := readVersions_ok (s.askedRows ids)
    (by
      intro r member
      obtain ⟨_, _, latest⟩ := (mem_askedRows keyed).mp member
      exact words r latest.stored)
    (by
      intro r member
      obtain ⟨id, asked, latest⟩ := (mem_askedRows keyed).mp member
      exact (readable id asked r latest).1)
    (by
      intro r member
      obtain ⟨id, asked, latest⟩ := (mem_askedRows keyed).mp member
      obtain ⟨_, tag, tagText⟩ := readable id asked r latest
      exact ⟨id, tag, latest.names.symm, tagText⟩)
  refine ⟨vs, (latestVersionsIn_few few).trans read, fun r => ?_⟩
  rw [rows, mem_askedRows keyed]

theorem latestVersionsIn_legible (keyed : Keyed s) {ids : List RecordId} {vs : List Version}
    (read : s.latestVersionsIn ids = .ok vs) : ∀ id ∈ ids, Legible s id.text := by
  intro id asked r latest
  unfold latestVersionsIn at read
  split at read
  · cases read
  · exact readVersions_dated read r ((mem_askedRows keyed).mpr ⟨id, asked, latest⟩)

/-- What reading the latest versions of ids fails with: a timestamp that is no integer column, or
else a tag that is not spelled. -/
inductive Spoiled (s : Store) (ids : List RecordId) : Error → Prop
  | undated {id : RecordId} {r : VersionRow} (asked : id ∈ ids) (latest : Latest s id.text r)
      (undated : Word.fitsSigned r.timestamp = false) : Spoiled s ids .columnType
  | misspelled {id : RecordId} {r : VersionRow} {fault : Malformed}
      (dated : ∀ id ∈ ids, Legible s id.text) (asked : id ∈ ids) (latest : Latest s id.text r)
      (misspelled : Tag.parse r.tag = .error fault) :
      Spoiled s ids (.corruptRow r.sequence fault.message)

theorem latestVersionsIn_spoiled (keyed : Keyed s) {ids : List RecordId}
    (few : ids.length ≤ maxParameters) (unreadable : ¬ ∀ id ∈ ids, Readable s id.text) :
    ∃ e, s.latestVersionsIn ids = .error e ∧ Spoiled s ids e := by
  rw [latestVersionsIn_few few, readVersions]
  obtain ⟨all, fetched, forth, back⟩ | ⟨r, member, e, failed, stopped⟩ :=
    mapM_cases VersionRow.fetch (s.askedRows ids)
  · have dated : ∀ id ∈ ids, Legible s id.text := fun id asked r latest => by
      obtain ⟨f, _, met⟩ := forth r ((mem_askedRows keyed).mpr ⟨id, asked, latest⟩)
      exact (fetch_cases met).2
    obtain ⟨vs, _, each, _⟩ | ⟨f, among, e, failed, stopped⟩ := mapM_cases Fetched.decode all
    · refine absurd (fun id asked r latest => ?_) unreadable
      obtain ⟨f, among, met⟩ := forth r ((mem_askedRows keyed).mpr ⟨id, asked, latest⟩)
      obtain ⟨v, _, decoded⟩ := each f among
      obtain ⟨rfl, _⟩ := fetch_cases met
      rcases decode_cases f latest.names.symm with ⟨tag, parsed, _⟩ | ⟨fault, _, broken⟩
      · exact ⟨dated id asked f.row latest, tag, Tag.text_of_parse _ _ parsed⟩
      · rw [broken] at decoded
        cases decoded
    · obtain ⟨r, member, met⟩ := back f among
      obtain ⟨rfl, _⟩ := fetch_cases met
      obtain ⟨id, asked, latest⟩ := (mem_askedRows keyed).mp member
      refine ⟨e, by rw [fetched]; exact stopped, ?_⟩
      rcases decode_cases f latest.names.symm with ⟨tag, _, decoded⟩ | ⟨fault, parsed, broken⟩
      · rw [decoded] at failed
        cases failed
      · rw [broken] at failed
        cases failed
        exact .misspelled dated asked latest parsed
  · obtain ⟨id, asked, latest⟩ := (mem_askedRows keyed).mp member
    refine ⟨e, by rw [stopped]; rfl, ?_⟩
    cases fits : Word.fitsSigned r.timestamp with
    | true => rw [fetch_dated fits] at failed; cases failed
    | false =>
      rw [fetch_undated fits] at failed
      cases failed
      exact .undated asked latest fits

end Store
end RecordLedger
