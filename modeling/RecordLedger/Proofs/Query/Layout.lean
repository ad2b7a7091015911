import Mathlib.Logic.Relation
import RecordLedger.Proofs.Query.Opening
import RecordLedger.Proofs.Text.Letters

/-! Layout and letter case of statements. What is left of a text without them is a normal form: two
texts have the same one exactly if edits of layout and letter case lead from one to the other. -/
namespace RecordLedger.Query

open Text (isBlank_toLower toLower_cases toLower_toLower)

theorem toLower_eq_comma_iff {c : Char} : c.toLower = ',' ↔ c = ',' := by
  rcases toLower_cases c with same | ⟨upper, lowered⟩
  · rw [same]
  · constructor <;> intro comma
    · rw [comma] at lowered
      have : ','.toNat = 44 := rfl
      omega
    · subst comma
      exact absurd upper.1 (by decide)

/-- Whether a text keeps a gap in front of it: it begins with white space, and what is behind that
is no comma. -/
def opensGap (cs : List Char) : Bool :=
  cs.head?.any Text.isBlank && (normalize cs).head?.any (· != ',')

def gap (c : Char) (cs : List Char) : List Char :=
  if c != ',' && opensGap cs then [' '] else []

theorem gap_congr {c d : Char} {cs ds : List Char} (same : c.toLower = d.toLower)
    (opens : opensGap cs = opensGap ds) : gap c cs = gap d ds := by
  have comma : (c != ',') = (d != ',') := by
    rw [Bool.eq_iff_iff, bne_iff_ne, bne_iff_ne, not_iff_not, ← toLower_eq_comma_iff, same,
      toLower_eq_comma_iff]
  rw [gap, gap, comma, opens]

theorem closeBeforeCommas_space (cs : List Char) :
    closeBeforeCommas (' ' :: cs) =
      if cs.head? = some ',' then closeBeforeCommas cs else ' ' :: closeBeforeCommas cs := by
  cases cs with
  | nil => rfl
  | cons c cs =>
    by_cases comma : c = ','
    · subst comma
      exact (closeBeforeCommas_letter (by decide) cs).symm
    · rw [if_neg (by simpa using comma), closeBeforeCommas]
      rintro _ - same
      exact comma (List.cons.inj same).1

theorem closeAfterCommas_cons {c d : Char} {cs : List Char} (apart : c ≠ ',' ∨ d ≠ ' ') :
    closeAfterCommas (c :: d :: cs) = c :: closeAfterCommas (d :: cs) := by
  rw [closeAfterCommas]
  rintro _ rfl same
  exact apart.elim (absurd rfl) fun other => other (List.cons.inj same).1

theorem normalize_blank {c : Char} (blank : Text.isBlank c = true) (cs : List Char) :
    normalize (c :: cs) = normalize cs := by
  rw [normalize, words_of_blank blank, ← normalize]

/-- The normal form of a text begins with the first letter of the text, in lower case. -/
theorem normalize_head? {cs : List Char} {c : Char} (head : (normalize cs).head? = some c) :
    Text.isBlank c = false := by
  obtain ⟨rest, shape⟩ := List.head?_eq_some_iff.mp head
  obtain ⟨d, ds, first, rfl⟩ := normalize_opening shape
  rw [isBlank_toLower]
  have kept := List.head?_dropWhile_not Text.isBlank cs
  rw [first] at kept
  simpa using kept

theorem joined_cons (c : Char) (w : List Char) (ws : List (List Char)) :
    joined ((c :: w) :: ws) = c :: joined (w :: ws) := by
  cases ws <;> rfl

theorem joined_words (cs : List Char) :
    (Text.words cs = [] ∧ normalize cs = []) ∨
      ∃ d rest, Text.isBlank d = false ∧ joined (Text.words cs) = d :: rest := by
  induction cs with
  | nil => exact .inl ⟨rfl, rfl⟩
  | cons c cs ih =>
    by_cases blank : Text.isBlank c = true
    · rwa [normalize_blank blank, words_of_blank blank]
    · have letter := Bool.eq_false_iff.mpr blank
      obtain ⟨w, ws, first⟩ := words_of_letter letter cs
      exact .inr ⟨c, joined (w :: ws), letter, by rw [first, joined_cons]⟩

/-- Behind its first letter a text keeps one space for a gap that something follows. -/
theorem joined_words_letter {c : Char} (letter : Text.isBlank c = false) (cs : List Char) :
    joined (Text.words (c :: cs)) =
      c :: if cs.head?.any Text.isBlank && !(Text.words cs).isEmpty then
        ' ' :: joined (Text.words cs) else joined (Text.words cs) := by
  rw [words_cons, letter, if_neg Bool.false_ne_true]
  cases cs with
  | nil => rfl
  | cons d ds =>
    by_cases gap : Text.isBlank d = true
    · simp only [gap, if_true, joined_cons, List.head?_cons, Option.any_some, Bool.true_and]
      cases Text.words (d :: ds) <;> rfl
    · obtain ⟨w, ws, first⟩ := words_of_letter (Bool.eq_false_iff.mpr gap) ds
      simp only [first, gap, Bool.false_eq_true, if_false, joined_cons, List.head?_cons,
        Option.any_some, Bool.false_and]

/-- The normal form of a text, from its first letter and the normal form of the rest. -/
theorem normalize_letter {c : Char} (letter : Text.isBlank c = false) (cs : List Char) :
    normalize (c :: cs) = c.toLower :: (gap c cs ++ normalize cs) := by
  have space := toLower_ne_space letter
  rw [normalize, joined_words_letter letter, List.map_cons, closeBeforeCommas_letter space]
  rcases joined_words cs with ⟨none, empty⟩ | ⟨d, rest, first, join⟩
  · simp [none, empty, gap, opensGap, joined, closeBeforeCommas, closeAfterCommas]
  · have some : (Text.words cs).isEmpty = false := by
      cases words : Text.words cs with
      | nil => rw [words] at join; cases join
      | cons => rfl
    have shape : normalize cs =
        closeAfterCommas (d.toLower :: closeBeforeCommas (rest.map Char.toLower)) := by
      rw [normalize, join, List.map_cons, closeBeforeCommas_letter (toLower_ne_space first)]
    have head : (normalize cs).head? = .some d.toLower := by
      obtain ⟨_, close⟩ := closeAfterCommas_letter d.toLower
        (closeBeforeCommas (rest.map Char.toLower))
      rw [shape, close, List.head?_cons]
    rw [some, join, Bool.not_false, Bool.and_true, gap, opensGap, head]
    by_cases blank : cs.head?.any Text.isBlank = true
    · simp only [blank, if_true, Bool.true_and, Option.any_some, List.map_cons]
      rw [show ' '.toLower = ' ' from rfl, closeBeforeCommas_space, List.head?_cons,
        closeBeforeCommas_letter (toLower_ne_space first)]
      by_cases comma : d.toLower = ','
      · rw [comma, if_pos rfl, closeAfterCommas_cons (.inr (by decide)), shape, comma]
        simp
      · rw [if_neg (by simpa using comma)]
        by_cases lead : c = ','
        · subst lead
          simp [shape, closeAfterCommas, show ','.toLower = ',' from rfl]
        · have lowered : c.toLower ≠ ',' := mt toLower_eq_comma_iff.mp lead
          rw [closeAfterCommas_cons (.inl lowered), closeAfterCommas_cons (.inl (by decide)), shape]
          simp [lead, comma]
    · simp only [blank, Bool.false_eq_true, if_false, Bool.false_and, Bool.and_false, List.map_cons,
        closeBeforeCommas_letter (toLower_ne_space first)]
      rw [closeAfterCommas_cons (.inr (toLower_ne_space first)), shape, List.nil_append]

def Blank (ws : List Char) : Prop := ∀ c ∈ ws, Text.isBlank c = true

instance (ws : List Char) : Decidable (Blank ws) := List.decidableBAll (Text.isBlank · = true) ws

theorem normalize_append {ws : List Char} (blank : Blank ws) (cs : List Char) :
    normalize (ws ++ cs) = normalize cs := by
  induction ws with
  | nil => rfl
  | cons c ws ih =>
    obtain ⟨first, others⟩ := List.forall_mem_cons.mp blank
    rw [List.cons_append, normalize_blank first, ih others]

theorem normalize_of_blank {ws : List Char} (blank : Blank ws) : normalize ws = [] := by
  rw [← List.append_nil ws, normalize_append blank]
  rfl

theorem opensGap_of_blank {ws : List Char} (blank : Blank ws) : opensGap ws = false := by
  rw [opensGap, normalize_of_blank blank, List.head?_nil, Option.any_none, Bool.and_false]

theorem opensGap_append {ws : List Char} (blank : Blank ws) (some : ws ≠ []) (cs : List Char) :
    opensGap (ws ++ cs) = (normalize cs).head?.any (· != ',') := by
  have all := normalize_append blank cs
  cases ws with
  | nil => exact absurd rfl some
  | cons c ws =>
    rw [opensGap, all, List.cons_append, List.head?_cons, Option.any_some,
      (List.forall_mem_cons.mp blank).1, Bool.true_and]

theorem opensGap_letter {c : Char} (letter : Text.isBlank c = false) (cs : List Char) :
    opensGap (c :: cs) = false := by
  rw [opensGap, List.head?_cons, Option.any_some, letter, Bool.false_and]

inductive Edit : List Char → List Char → Prop
  /-- Other white space for white space. -/
  | space {ws vs : List Char} (front back : List Char) (blank : Blank ws) (other : Blank vs)
      (some : ws ≠ []) (more : vs ≠ []) : Edit (front ++ (ws ++ back)) (front ++ (vs ++ back))
  | leading {ws : List Char} (back : List Char) (blank : Blank ws) : Edit (ws ++ back) back
  | trailing {ws : List Char} (front : List Char) (blank : Blank ws) : Edit (front ++ ws) front
  | beforeComma {ws : List Char} (front back : List Char) (blank : Blank ws) :
      Edit (front ++ (ws ++ ',' :: back)) (front ++ ',' :: back)
  | afterComma {ws : List Char} (front back : List Char) (blank : Blank ws) :
      Edit (front ++ ',' :: (ws ++ back)) (front ++ ',' :: back)
  | letter {c d : Char} (front back : List Char) (same : c.toLower = d.toLower) :
      Edit (front ++ c :: back) (front ++ d :: back)

/-- Any number of edits, each of them in either direction. -/
def Relaid : List Char → List Char → Prop := Relation.EqvGen Edit

theorem Edit.relaid {cs ds : List Char} (edit : Edit cs ds) : Relaid cs ds := .rel _ _ edit

theorem Relaid.trans {cs ds es : List Char} (first : Relaid cs ds) (second : Relaid ds es) :
    Relaid cs es := Relation.EqvGen.trans _ _ _ first second

theorem Relaid.symm {cs ds : List Char} (relaid : Relaid cs ds) : Relaid ds cs :=
  Relation.EqvGen.symm _ _ relaid

/-- Two texts that nothing in front of them tells apart. -/
def Alike (cs ds : List Char) : Prop := normalize cs = normalize ds ∧ opensGap cs = opensGap ds

theorem Alike.cons {c d : Char} {cs ds : List Char} (same : c.toLower = d.toLower)
    (alike : Alike cs ds) : Alike (c :: cs) (d :: ds) := by
  obtain ⟨normal, opens⟩ := alike
  have kind : Text.isBlank c = Text.isBlank d := by
    rw [← isBlank_toLower c, same, isBlank_toLower]
  by_cases blank : Text.isBlank c = true
  · have other := kind ▸ blank
    refine ⟨by rw [normalize_blank blank, normalize_blank other, normal], ?_⟩
    rw [opensGap, opensGap, normalize_blank blank, normalize_blank other, normal]
    simp only [List.head?_cons, Option.any_some, blank, other]
  · have letter := Bool.eq_false_iff.mpr blank
    have other := kind ▸ letter
    refine ⟨?_, by rw [opensGap_letter letter, opensGap_letter other]⟩
    rw [normalize_letter letter, normalize_letter other, same, normal, gap_congr same opens]

theorem Alike.append {cs ds : List Char} (alike : Alike cs ds) (front : List Char) :
    Alike (front ++ cs) (front ++ ds) := by
  induction front with
  | nil => exact alike
  | cons c front ih => exact ih.cons rfl

theorem Edit.normalize_eq {cs ds : List Char} (edit : Edit cs ds) :
    normalize cs = normalize ds := by
  cases edit with
  | space front back blank other some more =>
    refine (Alike.append ⟨?_, ?_⟩ front).1
    · rw [normalize_append blank, normalize_append other]
    · rw [opensGap_append blank some, opensGap_append other more]
  | leading back blank => exact normalize_append blank _
  | @trailing ws _ blank =>
    have alike : Alike ws [] := ⟨normalize_of_blank blank, opensGap_of_blank blank⟩
    simpa using (alike.append _).1
  | beforeComma front back blank =>
    have comma := normalize_letter (c := ',') (by decide) back
    refine (Alike.append ⟨normalize_append blank _, ?_⟩ front).1
    rw [opensGap_letter (by decide), opensGap, normalize_append blank, comma, Bool.and_eq_false_iff]
    exact .inr rfl
  | afterComma front back blank =>
    refine (Alike.append ⟨?_, ?_⟩ front).1
    · rw [normalize_letter (by decide), normalize_letter (by decide), normalize_append blank]
      rfl
    · rw [opensGap_letter (by decide), opensGap_letter (by decide)]
  | letter front back same => exact (Alike.append (Alike.cons same ⟨rfl, rfl⟩) front).1

theorem Relaid.normalize_eq {cs ds : List Char} (relaid : Relaid cs ds) :
    normalize cs = normalize ds := by
  induction relaid with
  | rel _ _ edit => exact edit.normalize_eq
  | refl => rfl
  | symm _ _ _ ih => exact ih.symm
  | trans _ _ _ _ _ ih jh => exact ih.trans jh

theorem blank_space : Blank [' '] := by decide

theorem blank_takeWhile (cs : List Char) : Blank (cs.takeWhile Text.isBlank) :=
  Text.takeWhile_blank cs

theorem head?_dropWhile_isBlank (cs : List Char) :
    (cs.dropWhile Text.isBlank).head?.any Text.isBlank = false := by
  have kept := List.head?_dropWhile_not Text.isBlank cs
  split at kept
  · next c first => rwa [first, Option.any_some]
  · next none => rw [none, Option.any_none]

theorem normalize_dropWhile (cs : List Char) :
    normalize (cs.dropWhile Text.isBlank) = normalize cs := by
  conv => rhs; rw [← List.takeWhile_append_dropWhile (p := Text.isBlank) (l := cs)]
  exact (normalize_append (blank_takeWhile cs) _).symm

/-- The white space behind a letter can be edited into what is left of it. -/
theorem relaid_gap (front : List Char) (c : Char) (cs : List Char) :
    Relaid (front ++ [c] ++ cs) (front ++ [c] ++ (gap c cs ++ cs.dropWhile Text.isBlank)) := by
  have blank := blank_takeWhile cs
  have start := head?_dropWhile_isBlank cs
  have split : cs.takeWhile Text.isBlank ++ cs.dropWhile Text.isBlank = cs :=
    List.takeWhile_append_dropWhile
  generalize cs.takeWhile Text.isBlank = ws at blank split
  generalize cs.dropWhile Text.isBlank = rest at start split
  subst split
  cases rest with
  | nil =>
    rw [List.append_nil, List.append_nil, gap, opensGap_of_blank blank, Bool.and_false]
    simpa using (Edit.trailing (front ++ [c]) blank).relaid
  | cons e es =>
    have letter : Text.isBlank e = false := start
    by_cases none : ws = []
    · subst none
      rw [List.nil_append, gap, opensGap_letter letter, Bool.and_false]
      exact .refl _
    · rw [gap, opensGap_append blank none, normalize_letter letter, List.head?_cons,
        Option.any_some]
      by_cases lead : c = ','
      · subst lead
        rw [List.append_assoc, List.append_assoc]
        exact (Edit.afterComma _ _ blank).relaid
      · by_cases comma : e = ','
        · subst comma
          rw [show ','.toLower = ',' from rfl, bne_self_eq_false, Bool.and_false]
          exact (Edit.beforeComma _ _ blank).relaid
        · rw [bne_iff_ne.mpr lead, bne_iff_ne.mpr (mt toLower_eq_comma_iff.mp comma), Bool.and_self,
            if_pos rfl]
          exact (Edit.space _ _ blank blank_space none (List.cons_ne_nil _ _)).relaid

theorem relaid_normalize_append (front cs : List Char) (start : cs.head?.any Text.isBlank = false) :
    Relaid (front ++ cs) (front ++ normalize cs) := by
  -- By the length, since a step takes a letter and all the white space behind it.
  induction size : cs.length using Nat.strongRecOn generalizing front cs with
  | ind n ih =>
    cases cs with
    | nil => exact .refl _
    | cons c cs =>
      have letter : Text.isBlank c = false := start
      have shorter : (cs.dropWhile Text.isBlank).length < n := by
        have := (List.dropWhile_sublist Text.isBlank (l := cs)).length_le
        rw [List.length_cons] at size
        omega
      have lower := toLower_toLower c
      have lowered : Relaid (front ++ c :: cs) (front ++ c.toLower :: cs) :=
        (Edit.letter _ _ lower.symm).relaid
      have spaced := relaid_gap front c.toLower cs
      rw [gap_congr lower rfl, ← List.append_assoc] at spaced
      have rest := ih _ shorter (front ++ [c.toLower] ++ gap c cs) (cs.dropWhile Text.isBlank)
        (head?_dropWhile_isBlank cs) rfl
      rw [normalize_dropWhile] at rest
      have tail : Relaid (front ++ [c.toLower] ++ cs)
          (front ++ [c.toLower] ++ gap c cs ++ normalize cs) := spaced.trans rest
      rw [normalize_letter letter]
      exact lowered.trans (by simpa using tail)

theorem relaid_normalize (cs : List Char) : Relaid cs (normalize cs) := by
  have leading : Relaid cs (cs.dropWhile Text.isBlank) := by
    have edit := Edit.leading (cs.dropWhile Text.isBlank) (blank_takeWhile cs)
    rw [List.takeWhile_append_dropWhile] at edit
    exact edit.relaid
  have rest := relaid_normalize_append [] _ (head?_dropWhile_isBlank cs)
  rw [normalize_dropWhile] at rest
  exact leading.trans rest

theorem normalize_eq_iff {cs ds : List Char} : normalize cs = normalize ds ↔ Relaid cs ds := by
  constructor
  · intro same
    have back := relaid_normalize ds
    rw [← same] at back
    exact (relaid_normalize cs).trans back.symm
  · exact Relaid.normalize_eq

theorem normalize_normalize (cs : List Char) : normalize (normalize cs) = normalize cs :=
  (relaid_normalize cs).normalize_eq.symm

def solid (c : Char) : Bool := !Text.isBlank c && c != ','

/-- White space stands only in single spaces, each of them between two solid characters. -/
def Tidy (cs : List Char) : Prop :=
  ∀ front back c, cs = front ++ c :: back → Text.isBlank c = true →
    c = ' ' ∧ front.getLast?.any solid = true ∧ back.head?.any solid = true

theorem Tidy.cons {cs : List Char} {c : Char} (tidy : Tidy cs) (letter : Text.isBlank c = false) :
    Tidy (c :: cs) := by
  intro front back b split blank
  cases front with
  | nil => cases split; rw [letter] at blank; cases blank
  | cons f front =>
    obtain ⟨single, before, behind⟩ := tidy front back b (List.cons.inj split).2 blank
    refine ⟨single, ?_, behind⟩
    obtain ⟨d, last, kind⟩ := (Option.any_eq_true _ _).mp before
    rw [List.getLast?_cons, last, Option.getD_some, Option.any_some, kind]

theorem Tidy.space {cs : List Char} {c : Char} (tidy : Tidy cs) (before : solid c = true)
    (behind : cs.head?.any solid = true) : Tidy (c :: ' ' :: cs) := by
  intro front back b split blank
  cases front with
  | nil =>
    cases split
    simp [solid, blank] at before
  | cons f front =>
    obtain ⟨rfl, rest⟩ := List.cons.inj split
    cases front with
    | nil => cases rest; exact ⟨rfl, before, behind⟩
    | cons g front =>
      obtain ⟨single, last, next⟩ := tidy front back b (List.cons.inj rest).2 blank
      refine ⟨single, ?_, next⟩
      obtain ⟨d, last, kind⟩ := (Option.any_eq_true _ _).mp last
      rw [List.getLast?_cons, List.getLast?_cons, last, Option.getD_some, Option.getD_some,
        Option.any_some, kind]

theorem Tidy.word {w cs : List Char} (tidy : Tidy cs) (behind : cs.head?.any solid = true)
    (letters : ∀ c ∈ w, Text.isBlank c = false) (last : w.getLast?.any solid = true) :
    Tidy (w ++ ' ' :: cs) := by
  induction w with
  | nil => cases last
  | cons c w ih =>
    obtain ⟨first, others⟩ := List.forall_mem_cons.mp letters
    cases w with
    | nil => exact tidy.space last behind
    | cons d w => exact (ih others (by rwa [List.getLast?_cons_cons] at last)).cons first

theorem tidy_of_letters {w : List Char} (letters : ∀ c ∈ w, Text.isBlank c = false) : Tidy w := by
  intro front back c split blank
  have letter := letters c (by rw [split]; exact List.mem_append_right front List.mem_cons_self)
  rw [letter] at blank
  cases blank

theorem tidy_normalize (cs : List Char) : Tidy (normalize cs) := by
  induction cs with
  | nil => exact tidy_of_letters nofun
  | cons c cs ih =>
    by_cases blank : Text.isBlank c = true
    · rwa [normalize_blank blank]
    · have letter := Bool.eq_false_iff.mpr blank
      have lowered : Text.isBlank c.toLower = false := (isBlank_toLower c).trans letter
      rw [normalize_letter letter, gap]
      split
      · next kept =>
        simp only [opensGap, Bool.and_eq_true, bne_iff_ne] at kept
        obtain ⟨lead, -, follows⟩ := kept
        refine ih.space ?_ ?_
        · simp [solid, lowered, mt toLower_eq_comma_iff.mp lead]
        · obtain ⟨d, head, other⟩ := (Option.any_eq_true _ _).mp follows
          rw [head, Option.any_some, solid, normalize_head? head, other]
          rfl
      · exact ih.cons lowered

theorem Tidy.head {cs : List Char} {c : Char} (tidy : Tidy (c :: cs)) : Text.isBlank c = false := by
  refine Bool.eq_false_iff.mpr fun blank => ?_
  cases (tidy [] cs c rfl blank).2.1

theorem Tidy.of_append {front cs : List Char} (tidy : Tidy (front ++ cs))
    (start : cs.head?.any Text.isBlank = false) : Tidy cs := by
  intro inner back b split blank
  obtain ⟨single, last, next⟩ := tidy (front ++ inner) back b (by rw [split]; simp) blank
  refine ⟨single, ?_, next⟩
  cases inner with
  | nil => rw [split] at start; exact absurd blank (Bool.eq_false_iff.mp start)
  | cons c inner =>
    rw [List.getLast?_append, List.getLast?_cons, Option.some_or] at last
    rwa [List.getLast?_cons]

/-- Of a tidy text the normal form changes letter case alone. -/
theorem normalize_of_tidy : ∀ {cs : List Char}, Tidy cs → normalize cs = cs.map Char.toLower
  | [], _ => rfl
  | [c], tidy => by
    rw [normalize_letter tidy.head, gap, show opensGap [] = false from rfl, Bool.and_false]
    rfl
  | c :: d :: cs, tidy => by
    rw [normalize_letter tidy.head, List.map_cons]
    by_cases blank : Text.isBlank d = true
    · obtain ⟨rfl, before, behind⟩ := tidy [c] cs d rfl blank
      obtain ⟨e, head, kind⟩ := (Option.any_eq_true _ _).mp behind
      rw [List.getLast?_singleton, Option.any_some] at before
      simp only [solid, Bool.and_eq_true, Bool.not_eq_true', bne_iff_ne] at kind before
      have spaced : Tidy ([c, ' '] ++ cs) := tidy
      have rest := spaced.of_append (by rw [head]; exact kind.1)
      have normal := normalize_of_tidy rest
      have follows : (normalize cs).head?.any (· != ',') = true := by
        rw [normal, List.head?_map, head]
        simp [mt toLower_eq_comma_iff.mp kind.2]
      have kept : gap c (' ' :: cs) = [' '] := by
        rw [gap, opensGap, normalize_blank rfl, follows, bne_iff_ne.mpr before.2]
        rfl
      rw [kept, normalize_blank rfl, normal]
      rfl
    · have letter := Bool.eq_false_iff.mpr blank
      have joined : Tidy ([c] ++ d :: cs) := tidy
      rw [normalize_of_tidy (joined.of_append letter), gap, opensGap_letter letter, Bool.and_false]
      rfl

/-- Edits of layout and letter case change no verdict. They lead from one text to another exactly if
both have one normal form, which is tidy and its own normal form. -/
theorem layout_ignored (a b : String) :
    (Relaid a.toList b.toList → violation? a = violation? b) ∧
    (Relaid a.toList b.toList ↔ normalize a.toList = normalize b.toList) ∧
    normalize (normalize a.toList) = normalize a.toList ∧ Tidy (normalize a.toList) := by
  refine ⟨fun relaid => ?_, normalize_eq_iff.symm, normalize_normalize _, tidy_normalize _⟩
  rw [violation?, violation?, relaid.normalize_eq]

def plainRead : String := "select sequence, id, data_type, payload, timestamp from record"

def scatteredRead : String :=
  "\u2003SELECT\u3000Sequence ,id,\n\tDATA_TYPE\u00a0\u2028,  payload\x0b,timestamp" ++
    "\r\nfrom   Record\u0085"

/-- Edits lead from one to the other, and both are let through. -/
theorem scattered_read :
    Relaid scatteredRead.toList plainRead.toList ∧ violation? scatteredRead = none := by
  obtain ⟨same, relaid_iff, -, -⟩ := layout_ignored scatteredRead plainRead
  have relaid := relaid_iff.mpr (by decide +kernel)
  exact ⟨relaid, (same relaid).trans (by decide +kernel)⟩

end RecordLedger.Query
