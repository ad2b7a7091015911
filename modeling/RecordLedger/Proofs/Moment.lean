import RecordLedger.Proofs.Calendar.Succession
import RecordLedger.Proofs.Instant
import RecordLedger.Proofs.Text.Counts

/-! Moments: a date of the calendar and a time of day in UTC. Instants of the calendar's range are
moments and are shown as such; the text of a four-digit year leads back to the instant. -/
namespace RecordLedger

open Calendar (Date)
open Text (Framed Solid)

structure Moment where
  date : Date
  nanos : Nat
  valid : date.isValid = true
  ranged : -262143 ≤ date.year ∧ date.year ≤ 262142
  inDay : nanos < 86400000000000

namespace Instant

theorem le_yearOf_iff (year micros : Int) :
    (Date.mk year 1 1).toDays * microsPerDay ≤ micros ↔ year ≤ yearOf micros := by
  have valid := Calendar.isValid_ofDays (micros / microsPerDay)
  have days := Calendar.le_toDays_iff valid year
  rw [Calendar.toDays_ofDays] at days
  rw [yearOf, ← days, Int.le_ediv_iff_mul_le (by decide)]

theorem lt_yearOf_iff (year micros : Int) :
    micros < (Date.mk year 1 1).toDays * microsPerDay ↔ yearOf micros < year := by
  rw [← Int.not_le, le_yearOf_iff, Int.not_le]

/-- The calendar's range, by years. -/
theorem dated_iff (micros : Int) :
    (firstDated ≤ micros ∧ micros ≤ lastDated) ↔
      (-262143 ≤ yearOf micros ∧ yearOf micros ≤ 262142) := by
  have low := le_yearOf_iff (-262143) micros
  have high := lt_yearOf_iff 262143 micros
  rw [firstDated, lastDated]
  omega

end Instant

namespace Moment

open Instant (microsPerDay firstDated lastDated yearOf)

/-- Microseconds from the start of 1970 on, rounded down. -/
def micros (m : Moment) : Int := m.date.toDays * microsPerDay + m.nanos / 1000

theorem micros_div (m : Moment) : m.micros / microsPerDay = m.date.toDays := by
  have := m.inDay
  simp only [micros, microsPerDay]
  omega

theorem micros_mod (m : Moment) : m.micros % microsPerDay = m.nanos / 1000 := by
  have := m.inDay
  simp only [micros, microsPerDay]
  omega

theorem yearOf_micros (m : Moment) : yearOf m.micros = m.date.year := by
  rw [yearOf, micros_div, Calendar.ofDays_toDays m.valid]

theorem micros_dated (m : Moment) : firstDated ≤ m.micros ∧ m.micros ≤ lastDated := by
  rw [Instant.dated_iff, yearOf_micros]
  exact m.ranged

theorem micros_fits (m : Moment) : Word.fitsSigned m.micros = true := by
  obtain ⟨low, high⟩ := m.micros_dated
  have first : firstDated = -8334601228800000000 := by decide
  have last : lastDated = 8210266876799999999 := by decide
  rw [Word.fitsSigned, Bool.and_eq_true, decide_eq_true_iff, decide_eq_true_iff, Word.minSigned,
    Word.maxSigned]
  omega

def instant (m : Moment) : Instant := ⟨m.micros, m.micros_fits⟩

def epoch : Moment := ⟨⟨1970, 1, 1⟩, 0, by decide, by decide, by decide⟩

end Moment

namespace Instant

theorem nanos_inDay (micros : Int) : (micros % microsPerDay).toNat * 1000 < 86400000000000 := by
  rw [microsPerDay]
  omega

/-- The date and the time of day of an instant; outside the calendar's range that of the epoch. -/
def moment (t : Instant) : Moment :=
  if h : firstDated ≤ t.micros ∧ t.micros ≤ lastDated then
    { date := Date.ofDays (t.micros / microsPerDay)
      nanos := (t.micros % microsPerDay).toNat * 1000
      valid := Calendar.isValid_ofDays _
      ranged := (dated_iff t.micros).mp h
      inDay := nanos_inDay t.micros }
  else .epoch

theorem moment_instant (t : Instant) : t.moment.instant = t.dated := by
  rw [moment, dated]
  split_ifs with ranged
  · have whole := Calendar.toDays_ofDays (t.micros / microsPerDay)
    obtain ⟨micros, fits⟩ := t
    rw [Moment.instant, Instant.mk.injEq, Moment.micros, whole]
    simp only [microsPerDay]
    omega
  · decide

end Instant

namespace Moment

open Instant (yearText calendarText microsPerDay)
open Text.Numeral (padded)

def letters (m : Moment) : List Char :=
  let seconds := m.nanos / 1000000000
  let two := padded 2
  yearText m.date.year ++ ['-'] ++ two m.date.month ++ ['-'] ++ two m.date.day ++ ['T'] ++
    two (seconds / 3600) ++ [':'] ++ two (seconds / 60 % 60) ++ [':'] ++ two (seconds % 60) ++
    ['.'] ++ padded 6 (m.nanos / 1000 % 1000000) ++ ['Z']

def text (m : Moment) : String := String.ofList m.letters

theorem calendarText_micros (m : Moment) : calendarText m.micros = m.letters := by
  have date : Date.ofDays (m.micros / microsPerDay) = m.date := by
    rw [micros_div, Calendar.ofDays_toDays m.valid]
  have time : (m.micros % microsPerDay).toNat = m.nanos / 1000 := by
    rw [micros_mod]
    omega
  have hour : m.nanos / 1000 / 3600000000 = m.nanos / 1000000000 / 3600 := by omega
  have minute : m.nanos / 1000 / 60000000 = m.nanos / 1000000000 / 60 := by omega
  have second : m.nanos / 1000 / 1000000 = m.nanos / 1000000000 := by omega
  rw [calendarText, letters, date, time, hour, minute, second]

end Moment

namespace Instant

theorem text_moment (t : Instant) : t.text = t.moment.text := by
  rw [text, ← moment_instant, Moment.instant, Moment.calendarText_micros, Moment.text]

theorem solid_yearText (year : Int) : Solid (yearText year) := by
  rw [yearText]
  split_ifs
  · exact Text.Numeral.solid_padded 4 _
  · exact List.forall_mem_cons.mpr ⟨rfl, Text.Numeral.solid_padded 4 _⟩
  · exact List.forall_mem_cons.mpr ⟨rfl, Text.Numeral.solid_padded 4 _⟩

theorem solid_text (t : Instant) : Solid t.text.toList := by
  rw [text, String.toList_ofList]
  simp only [calendarText, Text.solid_append, Text.Numeral.solid_padded, solid_yearText, true_and,
    and_true]
  decide

theorem text_no_count (t : Instant) : Text.Numeral.int? t.text.toList = none := by
  refine Option.eq_none_iff_forall_ne_some.mpr fun n read => ?_
  have last : 'Z' ∈ t.text.toList := by
    rw [text, String.toList_ofList]
    exact List.mem_append_right _ (List.mem_singleton.mpr rfl)
  exact absurd (Text.Numeral.int?_chars read 'Z' last) (by decide)

/-- White space around a text makes no difference. -/
theorem parse_framed {cs : List Char} {s : String} {t : Instant} (framed : Framed cs s.toList)
    (solid : Solid cs) : Instant.parse s = .ok t ↔ Instant.parse (String.ofList cs) = .ok t := by
  have alone : Text.trim (String.ofList cs).toList = cs := by
    rw [String.toList_ofList]
    exact (Framed.refl cs).trim_eq solid
  simp only [Instant.parse, mapError_eq_ok_iff, Instant.read, framed.trim_eq solid, alone]

theorem parse_count (t : Instant) :
    Instant.parse (String.ofList (Text.Numeral.ofInt t.micros)) = .ok t := by
  have alone : Text.trim (String.ofList (Text.Numeral.ofInt t.micros)).toList =
      Text.Numeral.ofInt t.micros := by
    rw [String.toList_ofList]
    exact (Framed.refl _).trim_eq (Text.Numeral.solid_ofInt t.micros)
  have fits : ofMicros? t.micros = some t := by rw [ofMicros?, dif_pos t.fits]
  simp only [Instant.parse, mapError_eq_ok_iff, Instant.read, alone, Text.Numeral.int?_ofInt,
    Option.bind_some, fits]

end Instant

namespace Moment

def firstNamed : Moment := ⟨⟨0, 1, 1⟩, 0, by decide, by decide, by decide⟩

def lastNamed : Moment := ⟨⟨9999, 12, 31⟩, 86399999999000, by decide, by decide, by decide⟩

example : firstNamed.text = "0000-01-01T00:00:00.000000Z" := by decide +kernel
example : lastNamed.text = "9999-12-31T23:59:59.999999Z" := by decide +kernel

end Moment

namespace Instant

def Named (t : Instant) : Prop :=
  Moment.firstNamed.instant.micros ≤ t.micros ∧ t.micros ≤ Moment.lastNamed.instant.micros

instance (t : Instant) : Decidable (Named t) := inferInstanceAs (Decidable (_ ∧ _))

theorem named_iff (t : Instant) : Named t ↔ FourDigit t.micros := by
  have first : Moment.firstNamed.instant.micros = (Date.mk 0 1 1).toDays * microsPerDay := by decide
  have last : Moment.lastNamed.instant.micros + 1 = (Date.mk 10000 1 1).toDays * microsPerDay := by
    decide
  have low := le_yearOf_iff 0 t.micros
  have high := lt_yearOf_iff 10000 t.micros
  rw [Named, FourDigit, first]
  omega

theorem Named.parse {t : Instant} (named : Named t) : Instant.parse t.text = .ok t :=
  parse_text ((named_iff t).mp named)

theorem Named.text_inj {t u : Instant} (left : Named t) (right : Named u)
    (same : t.text = u.text) : t = u := by
  have read := left.parse
  rw [same, right.parse] at read
  exact (Except.ok.inj read).symm

/-- The text of an instant of a four-digit year stands for it, with white space around it or not,
and for no other instant of these years. No text of an instant is a plain count, and the plain count
of any instant stands for it. In the calendar's range an instant is that of its date and its time of
day, which its text shows. -/
theorem texts_name_instants (t u : Instant) (s : String) :
    (Named t → Framed t.text.toList s.toList → Instant.parse s = .ok t) ∧
    (Framed t.text.toList s.toList → Text.Numeral.int? (Text.trim s.toList) = none) ∧
    (Named t → Named u → t.text = u.text → t = u) ∧
    (Framed (Text.Numeral.ofInt t.micros) s.toList → Instant.parse s = .ok t) ∧
    (firstDated ≤ t.micros → t.micros ≤ lastDated → t.moment.instant = t) ∧
    t.text = t.moment.text ∧ Calendar.Gregorian Date.ofDays Date.toDays := by
  refine ⟨?_, ?_, Named.text_inj, ?_, ?_, text_moment t, Calendar.gregorian⟩
  · intro named framed
    rw [parse_framed framed (solid_text t), String.ofList_toList]
    exact named.parse
  · intro framed
    rw [framed.trim_eq (solid_text t)]
    exact text_no_count t
  · intro framed
    rw [parse_framed framed (Text.Numeral.solid_ofInt t.micros)]
    exact parse_count t
  · intro low high
    rw [moment_instant, dated, if_pos ⟨low, high⟩]

/-- The last microsecond before 1970, between a no-break space and a line separator. -/
theorem eve_of_epoch_read :
    let t : Instant := ⟨-1, by decide⟩
    let s := "\u00a01969-12-31T23:59:59.999999Z\u2028"
    Named t ∧ Framed t.text.toList s.toList ∧ Instant.parse s = .ok t := by
  intro t s
  have named : Named t := by decide
  have framed : Framed t.text.toList s.toList :=
    ⟨['\u00a0'], ['\u2028'], by decide +kernel, List.forall_mem_singleton.mpr rfl,
      List.forall_mem_singleton.mpr rfl⟩
  exact ⟨named, framed, (texts_name_instants t t s).1 named framed⟩

end Instant

end RecordLedger
