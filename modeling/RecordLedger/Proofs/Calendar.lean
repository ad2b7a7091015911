import Mathlib.Tactic.IntervalCases
import RecordLedger.Calendar

/-! Days and dates. The days of a cycle are those of whole centuries, of whole four-year spans, of
whole years and of a part of a year, each as long as its leap days make it; so a day has a date of
its own, and the date leads back to the day. -/
namespace RecordLedger.Calendar

/-- The day `d` of a cycle by its century, the four-year span in that, the year in that and the day
in that. Only the last year of a span has a last day of its own, and not if it ends a century other
than the last. -/
structure Split (d century span year day : Int) : Prop where
  whole : d = 36524 * century + 1461 * span + 365 * year + day
  centuries : 0 ≤ century ∧ century ≤ 3
  spans : 0 ≤ span ∧ span ≤ 24
  years : 0 ≤ year ∧ year ≤ 3
  days : 0 ≤ day ∧ day ≤ 365
  leap : day = 365 → year = 3 ∧ (span ≠ 24 ∨ century = 3)

theorem split_day {d : Int} (low : 0 ≤ d) (high : d < 146097) :
    ∃ century span year day, Split d century span year day := by
  -- The last day of the cycle would begin a century, a span or a year of its own by division alone.
  obtain ⟨h, century, rest⟩ : ∃ h, (0 ≤ h ∧ h ≤ 3) ∧
      (0 ≤ d - 36524 * h ∧ (d - 36524 * h < 36524 ∨ h = 3 ∧ d - 36524 * h ≤ 36524)) := by
    by_cases last : d = 146096
    · exact ⟨3, by omega, by omega⟩
    · exact ⟨d / 36524, by omega, by omega⟩
  generalize inside : d - 36524 * h = e at rest
  obtain ⟨r, year, day⟩ : ∃ r, (0 ≤ r ∧ r ≤ 3) ∧
      (0 ≤ e % 1461 - 365 * r ∧ (e % 1461 - 365 * r < 365 ∨ r = 3 ∧ e % 1461 - 365 * r ≤ 365)) := by
    by_cases last : e % 1461 = 1460
    · exact ⟨3, by omega, by omega⟩
    · exact ⟨e % 1461 / 365, by omega, by omega⟩
  exact ⟨h, e / 1461, r, e % 1461 - 365 * r, by omega, century, by omega, year, by omega, by omega⟩

variable {d century span year day : Int}

theorem Split.yearOfCycle (split : Split d century span year day) :
    (d - d / 1460 + d / 36524 - d / 146096) / 365 = 100 * century + 4 * span + year := by
  obtain ⟨whole, centuries, spans, years, days, leap⟩ := split
  have quotient : d / 36524 - d / 146096 = century := by
    have inside : 1461 * span + 365 * year + day < 36524 ∨
        century = 3 ∧ 1461 * span + 365 * year + day = 36524 := by omega
    rcases inside with less | ⟨last, full⟩
    · have here : d / 36524 = century := by omega
      have before : d / 146096 = 0 := by omega
      rw [here, before, sub_zero]
    · obtain rfl : d = 146096 := by omega
      rw [last]
      rfl
  have quotient' : d / 1460 =
      25 * century + span + (24 * century + span + 365 * year + day) / 1460 := by omega
  omega

theorem Split.dayOfYear (split : Split d century span year day) :
    365 * (100 * century + 4 * span + year) + (100 * century + 4 * span + year) / 4 -
      (100 * century + 4 * span + year) / 100 = d - day := by
  obtain ⟨whole, centuries, spans, years, days, leap⟩ := split
  omega

def dateOf (year day : Int) : Date :=
  let month := (5 * day + 2) / 153
  let dayOfMonth := (day - (153 * month + 2) / 5 + 1).toNat
  if month < 10 then ⟨year, (month + 3).toNat, dayOfMonth⟩
  else ⟨year + 1, (month - 9).toNat, dayOfMonth⟩

theorem ofDays_eq (n : Int) : ∃ century span year day,
    Split ((n + cycleOffset) % cycleDays) century span year day ∧
    Date.ofDays n = dateOf (400 * ((n + cycleOffset) / cycleDays) +
      (100 * century + 4 * span + year)) day := by
  obtain ⟨h, q, r, t, split⟩ := split_day (d := (n + cycleOffset) % cycleDays)
    (by simp only [cycleDays]; omega) (by simp only [cycleDays]; omega)
  refine ⟨h, q, r, t, split, ?_⟩
  have day : (n + cycleOffset) % cycleDays - ((n + cycleOffset) % cycleDays - t) = t := by omega
  rw [Date.ofDays]
  simp only [split.yearOfCycle, split.dayOfYear, day]
  rfl

theorem month_bounds {day : Int} (low : 0 ≤ day) (high : day ≤ 365) :
    let month := (5 * day + 2) / 153
    0 ≤ month ∧ month ≤ 11 ∧ 1 ≤ day - (153 * month + 2) / 5 + 1 := by
  omega

theorem toDays_dateOf {year day : Int} (low : 0 ≤ day) (high : day ≤ 365) :
    (dateOf year day).toDays = year / 400 * cycleDays + (365 * (year % 400) + year % 400 / 4 -
      year % 400 / 100 + day) - cycleOffset := by
  obtain ⟨first, last, start⟩ := month_bounds low high
  unfold dateOf
  dsimp only
  generalize (5 * day + 2) / 153 = month at *
  split
  · have later : ¬ (month + 3).toNat ≤ 2 := by omega
    rw [Date.toDays]
    simp only [later, if_false]
    omega
  · have early : (month - 9).toNat ≤ 2 := by omega
    rw [Date.toDays]
    simp only [early, if_true, add_sub_cancel_right]
    omega

theorem toDays_ofDays (n : Int) : (Date.ofDays n).toDays = n := by
  obtain ⟨h, q, r, t, split, date⟩ := ofDays_eq n
  have before := split.dayOfYear
  obtain ⟨_, centuries, spans, years, days, _⟩ := split
  have cycle : (400 * ((n + cycleOffset) / cycleDays) + (100 * h + 4 * q + r)) / 400 =
      (n + cycleOffset) / cycleDays := by omega
  have inside : (400 * ((n + cycleOffset) / cycleDays) + (100 * h + 4 * q + r)) % 400 =
      100 * h + 4 * q + r := by omega
  rw [date, toDays_dateOf days.1 days.2, cycle, inside, before]
  simp only [cycleDays]
  omega

theorem isValid_dateOf {cycle : Int} (split : Split d century span year day) :
    (dateOf (400 * cycle + (100 * century + 4 * span + year)) day).isValid = true := by
  obtain ⟨_, centuries, spans, years, days, leap⟩ := split
  obtain ⟨first, last, start⟩ := month_bounds days.1 days.2
  unfold dateOf
  dsimp only
  generalize shape : (5 * day + 2) / 153 = month at *
  simp only [Date.isValid, Bool.and_eq_true, decide_eq_true_eq]
  interval_cases month <;> simp [daysInMonth, isLeapYear] <;> omega

theorem isValid_ofDays (n : Int) : (Date.ofDays n).isValid = true := by
  obtain ⟨h, q, r, t, split, date⟩ := ofDays_eq n
  rw [date]
  exact isValid_dateOf split

theorem daysInMonth_le (year : Int) (month : Nat) : daysInMonth year month ≤ 31 := by
  unfold daysInMonth
  repeat' split
  all_goals decide

theorem days_near (n : Int) (low : 0 ≤ (Date.ofDays n).year) (high : (Date.ofDays n).year ≤ 9999) :
    -1000000 ≤ n ∧ n ≤ 4000000 := by
  have days := toDays_ofDays n
  have valid := isValid_ofDays n
  generalize Date.ofDays n = date at *
  simp only [Date.isValid, Bool.and_eq_true, decide_eq_true_eq] at valid
  have few := daysInMonth_le date.year date.month
  simp only [Date.toDays, cycleDays, cycleOffset] at days
  by_cases early : date.month ≤ 2
  · simp only [early, if_true] at days
    omega
  · simp only [early, if_false] at days
    omega

end RecordLedger.Calendar
