import RecordLedger.Proofs.Sorting
import RecordLedger.Proofs.Spelling
import RecordLedger.Store.Interruption

/-! What every store satisfies that was built by calls other than ad hoc statements: rows stand in
the order of their sequence numbers, an id has at most one index row, and the texts of all rows
spell ids and tags. -/
namespace RecordLedger.Store

/-- The sequence numbers of a relation's rows against the greatest number ever used. -/
structure Numbered (numbers : List Int) (last : Int) : Prop where
  increasing : numbers.Pairwise (· < ·)
  positive : ∀ n ∈ numbers, 1 ≤ n
  used : ∀ n ∈ numbers, n ≤ last
  start : 0 ≤ last
  fits : last ≤ Word.maxSigned

theorem next?_eq_some_iff : next? last = some n ↔ last < Word.maxSigned ∧ n = last + 1 := by
  unfold next?
  split
  · next free => simp [free, eq_comm]
  · next full => simp [full]

theorem Numbered.use (valid : Numbered numbers last) (free : next? last = some n) :
    Numbered numbers n := by
  obtain ⟨below, rfl⟩ := next?_eq_some_iff.mp free
  refine ⟨valid.increasing, valid.positive, ?_, ?_, ?_⟩
  · intro m member
    have := valid.used m member
    omega
  · have := valid.start; omega
  · omega

theorem Numbered.push (valid : Numbered numbers last) (free : next? last = some n) :
    Numbered (numbers ++ [n]) n := by
  have used := valid.use free
  obtain ⟨_, rfl⟩ := next?_eq_some_iff.mp free
  refine ⟨?_, ?_, ?_, used.start, used.fits⟩
  · refine List.pairwise_append.mpr ⟨valid.increasing, List.pairwise_singleton .., ?_⟩
    intro m member k last_one
    have := valid.used m member
    have := List.mem_singleton.mp last_one
    omega
  · intro m member
    rcases List.mem_append.mp member with member | member
    · exact valid.positive m member
    · have := valid.start
      have := List.mem_singleton.mp member
      omega
  · intro m member
    rcases List.mem_append.mp member with member | member
    · exact used.used m member
    · exact Int.le_of_eq (List.mem_singleton.mp member)

theorem Numbered.sublist (valid : Numbered numbers last) (part : fewer.Sublist numbers) :
    Numbered fewer last :=
  ⟨valid.increasing.sublist part, fun n member => valid.positive n (part.subset member),
    fun n member => valid.used n (part.subset member), valid.start, valid.fits⟩

/-- Elements of a list that are related neither way are one element. -/
theorem eq_of_pairwise {R : α → α → Prop} {xs : List α} (related : xs.Pairwise R) (ha : a ∈ xs)
    (hb : b ∈ xs) (forth : ¬ R a b) (back : ¬ R b a) : a = b := by
  obtain ⟨i, hi, rfl⟩ := List.mem_iff_getElem.mp ha
  obtain ⟨j, hj, rfl⟩ := List.mem_iff_getElem.mp hb
  have ordered := List.pairwise_iff_getElem.mp related
  rcases Nat.lt_trichotomy i j with before | equal | after
  · exact absurd (ordered i j hi hj before) forth
  · simp only [equal]
  · exact absurd (ordered j i hj hi after) back

/-- The rows that are picked from a relation are in the order of their numbers. -/
theorem Numbered.sort_filter {rows : List α} {number : α → Int}
    (valid : Numbered (rows.map number) last) (p : α → Bool) :
    Sort.sort (fun a b => decide (number a ≤ number b)) (rows.filter p) = rows.filter p := by
  refine Sort.sort_eq_self _ ?_
  refine ((List.pairwise_map.mp valid.increasing).filter p).imp fun less => ?_
  exact decide_eq_true (Int.le_of_lt less)

theorem length_le_of_increasing (numbers : List Int) (lower upper : Int)
    (increasing : numbers.Pairwise (· < ·)) (above : ∀ n ∈ numbers, lower < n)
    (below : ∀ n ∈ numbers, n ≤ upper) (ordered : lower ≤ upper) :
    (numbers.length : Int) ≤ upper - lower := by
  induction numbers generalizing lower with
  | nil => simpa using ordered
  | cons n rest ih =>
    obtain ⟨first, increasing⟩ := List.pairwise_cons.mp increasing
    obtain ⟨first_above, _⟩ := List.forall_mem_cons.mp above
    obtain ⟨first_below, below⟩ := List.forall_mem_cons.mp below
    have := ih n increasing first below first_below
    rw [List.length_cons]
    omega

def Spelled (id tag : String) : Prop := ∃ (i : RecordId) (t : Tag), i.text = id ∧ t.text = tag

structure Sound (s : Store) : Prop where
  versions : Numbered (s.versions.map (·.sequence)) s.lastVersion
  index : Numbered (s.index.map (·.sequence)) s.lastIndex
  single : s.index.Pairwise fun a b => a.id ≠ b.id
  versionTexts : ∀ r ∈ s.versions, Spelled r.id r.tag
  indexTexts : ∀ r ∈ s.index, Spelled r.id r.tag

/-- What the keys of the two relations make of every store. -/
structure Keyed (s : Store) : Prop where
  versions : s.versions.Pairwise fun a b => a.sequence ≠ b.sequence
  single : s.index.Pairwise fun a b => a.id ≠ b.id

/-- What the constraints of the two relations make of every store whose index names ids: rows may
come in any order, versions with any texts and timestamps. -/
structure Formed (s : Store) : Prop where
  versions : s.versions.Pairwise fun a b => a.sequence ≠ b.sequence
  words : ∀ r ∈ s.versions, Word.minSigned ≤ r.sequence ∧ r.sequence ≤ Word.maxSigned
  index : s.index.Pairwise fun a b => a.sequence ≠ b.sequence
  bounds : ∀ row ∈ s.index, 1 ≤ row.sequence ∧ row.sequence ≤ Word.maxSigned
  single : s.index.Pairwise fun a b => a.id ≠ b.id
  ids : ∀ row ∈ s.index, ∃ id : RecordId, id.text = row.id

theorem Numbered.within {rows : List α} {number : α → Int}
    (valid : Numbered (rows.map number) last) {a : α} (stored : a ∈ rows) :
    1 ≤ number a ∧ number a ≤ last ∧ number a ≤ Word.maxSigned := by
  have member : number a ∈ rows.map number := List.mem_map_of_mem stored
  have used := valid.used _ member
  exact ⟨valid.positive _ member, used, Int.le_trans used valid.fits⟩

theorem Numbered.apart {rows : List α} {number : α → Int}
    (valid : Numbered (rows.map number) last) : rows.Pairwise fun a b => number a ≠ number b :=
  (List.pairwise_map.mp valid.increasing).imp Int.ne_of_lt

theorem Sound.formed (sound : Sound s) : Formed s where
  versions := sound.versions.apart
  words r stored := by
    have := sound.versions.within stored
    simp only [Word.minSigned]
    omega
  index := sound.index.apart
  bounds row stored := by
    have := sound.index.within stored
    omega
  single := sound.single
  ids row stored := by
    obtain ⟨id, _, text, _⟩ := sound.indexTexts row stored
    exact ⟨id, text⟩

theorem Formed.keyed (formed : Formed s) : Keyed s := ⟨formed.versions, formed.single⟩

theorem Sound.keyed (sound : Sound s) : Keyed s := sound.formed.keyed

theorem empty_sound : Sound empty :=
  ⟨⟨.nil, by simp [empty], by simp [empty], by decide, by decide⟩,
    ⟨.nil, by simp [empty], by simp [empty], by decide, by decide⟩,
    .nil, by simp [empty], by simp [empty]⟩

theorem isIndexed_iff (s : Store) (id : String) :
    s.isIndexed id = true ↔ ∃ r ∈ s.index, r.id = id := by
  simp [isIndexed]

theorem isIndexed_eq_false_iff (s : Store) (id : String) :
    s.isIndexed id = false ↔ ∀ r ∈ s.index, r.id ≠ id := by
  simp [isIndexed]

theorem Keyed.row_unique (valid : Keyed s) {a b : IndexRow} (ha : a ∈ s.index) (hb : b ∈ s.index)
    (same : a.id = b.id) : a = b :=
  eq_of_pairwise valid.single ha hb (fun other => other same) (fun other => other same.symm)

theorem Keyed.version_unique (valid : Keyed s) {a b : VersionRow} (ha : a ∈ s.versions)
    (hb : b ∈ s.versions) (same : a.sequence = b.sequence) : a = b :=
  eq_of_pairwise valid.versions ha hb (fun other => other same) (fun other => other same.symm)

theorem Sound.rows_le_one (valid : Sound s) (id : String) :
    (s.index.filter (·.id = id)).length ≤ 1 := by
  have single := valid.single.filter (·.id = id)
  match shape : s.index.filter (·.id = id) with
  | [] => simp [shape]
  | [_] => simp [shape]
  | a :: b :: rest =>
    have members : ∀ r ∈ a :: b :: rest, r.id = id := by
      intro r member
      rw [← shape] at member
      simpa using (List.mem_filter.mp member).2
    rw [shape] at single
    have apart := (List.pairwise_cons.mp single).1 b List.mem_cons_self
    exact absurd ((members a List.mem_cons_self).trans (members b (by simp)).symm) apart

def newRow (s : Store) (now : Instant) (id : RecordId) (tag : Tag) (payload : String) (n : Int) :
    VersionRow :=
  ⟨n, id.text, tag.text, payload, s.stamp id.text now⟩

/-- All that one call can do to a store at a reading of the clock. -/
inductive Effect (now : Instant) (s : Store) : Store → Prop
  | none : Effect now s s
  | version (id : RecordId) (tag : Tag) (payload : String) (n : Int)
      (free : next? s.lastVersion = some n) :
      Effect now s { s with
        versions := s.versions ++ [s.newRow now id tag payload n], lastVersion := n }
  | number (n : Int) (free : next? s.lastIndex = some n) : Effect now s { s with lastIndex := n }
  | entry (id : RecordId) (tag : Tag) (n : Int) (free : next? s.lastIndex = some n)
      (absent : s.isIndexed id.text = false) :
      Effect now s { s with index := s.index ++ [⟨n, id.text, tag.text⟩], lastIndex := n }
  | removal (id : RecordId) : Effect now s { s with index := s.index.filter (·.id != id.text) }

theorem insertVersion_effect (now : Instant) (id : RecordId) (tag : Tag) (payload : String)
    (s : Store) : Effect now s (s.insertVersion now id tag payload).2 := by
  unfold insertVersion
  split
  · exact .none
  · next n free =>
    dsimp only
    split
    · split <;> exact .version id tag payload n free
    · exact .none

theorem upsertIndex_effect (now : Instant) (id : RecordId) (tag : Tag) (s : Store) :
    Effect now s (s.upsertIndex id tag).2 := by
  unfold upsertIndex
  split
  · exact .none
  · next n free =>
    split
    · exact .number n free
    · next absent => exact .entry id tag n free (Bool.eq_false_iff.mpr absent)

theorem answer_effect (now : Instant) (c : Call) (ordinary : c.method ≠ .query) (s : Store) :
    Effect now s (answer now c s).2 := by
  cases c with
  | insertVersion id tag payload => exact insertVersion_effect now id tag payload s
  | upsertIndex id tag => exact upsertIndex_effect now id tag s
  | removeIndex id => exact .removal id
  | indexIfLive id tag =>
    simp only [answer, indexIfLive]
    split
    · exact upsertIndex_effect now id tag s
    · exact .none
  | unindexIfDead id =>
    simp only [answer, unindexIfDead]
    split
    · exact .removal id
    · exact .none
  | query => exact absurd rfl ordinary
  | _ => exact .none

theorem Effect.sound (effect : Effect now s t) (valid : Sound s) : Sound t := by
  cases effect with
  | none => exact valid
  | version id tag payload n free =>
    refine ⟨?_, valid.index, valid.single, ?_, valid.indexTexts⟩
    · simpa [newRow] using valid.versions.push free
    · intro r member
      rcases List.mem_append.mp member with member | member
      · exact valid.versionTexts r member
      · rw [List.mem_singleton.mp member]
        exact ⟨id, tag, rfl, rfl⟩
  | number n free => exact { valid with index := valid.index.use free }
  | entry id tag n free absent =>
    refine ⟨valid.versions, ?_, ?_, valid.versionTexts, ?_⟩
    · simpa using valid.index.push free
    · refine List.pairwise_append.mpr ⟨valid.single, List.pairwise_singleton .., ?_⟩
      intro r member other last
      rw [List.mem_singleton.mp last]
      exact (isIndexed_eq_false_iff s id.text).mp absent r member
    · intro r member
      rcases List.mem_append.mp member with member | member
      · exact valid.indexTexts r member
      · rw [List.mem_singleton.mp member]
        exact ⟨id, tag, rfl, rfl⟩
  | removal id =>
    have part : (s.index.filter (·.id != id.text)).Sublist s.index := List.filter_sublist
    exact ⟨valid.versions, valid.index.sublist (part.map _), valid.single.sublist part,
      valid.versionTexts, fun r member => valid.indexTexts r (part.subset member)⟩

/-- Stores that calls lead to from the empty one, at any readings of the clock and whatever the
calls answer; ad hoc statements are left out. -/
inductive Reached : Store → Prop
  | empty : Reached empty
  | call (reached : Reached s) (now : Instant) (c : Call) (ordinary : c.method ≠ .query) :
      Reached (answer now c s).2

theorem Reached.runAll (reached : Reached s) (now : Instant) (calls : List Call)
    (ordinary : ∀ c ∈ calls, c.method ≠ .query) :
    Reached ((answer now : Backend Store).runAll calls s) := by
  induction calls generalizing s with
  | nil => exact reached
  | cons c rest ih =>
    obtain ⟨first, others⟩ := List.forall_mem_cons.mp ordinary
    exact ih (.call reached now c first) others

theorem Reached.sound (reached : Reached s) : Sound s := by
  induction reached with
  | empty => exact empty_sound
  | call _ now c ordinary ih => exact (answer_effect now c ordinary _).sound ih

end RecordLedger.Store
