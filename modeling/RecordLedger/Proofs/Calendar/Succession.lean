import RecordLedger.Proofs.Calendar

/-! How dates follow one another. The date of a day is followed by the date of the next day, month
by month and year by year, which makes the calendar the proleptic Gregorian one. -/
namespace RecordLedger.Calendar

/-- The date of the next day: in the same month, the first of the next month or of the next year. -/
def Date.next (d : Date) : Date :=
  if d.day < daysInMonth d.year d.month then ⟨d.year, d.month, d.day + 1⟩
  else if d.month < 12 then ⟨d.year, d.month + 1, 1⟩
  else ⟨d.year + 1, 1, 1⟩

theorem isValid_iff {d : Date} : d.isValid = true ↔
    1 ≤ d.month ∧ d.month ≤ 12 ∧ 1 ≤ d.day ∧ d.day ≤ daysInMonth d.year d.month := by
  simp only [Date.isValid, Bool.and_eq_true, decide_eq_true_eq, and_assoc]

theorem isLeapYear_iff {year : Int} :
    isLeapYear year = true ↔ year % 4 = 0 ∧ (year % 100 ≠ 0 ∨ year % 400 = 0) := by
  simp [isLeapYear]

theorem daysInMonth_pos (year : Int) (month : Nat) : 1 ≤ daysInMonth year month := by
  unfold daysInMonth
  repeat' split
  all_goals decide

theorem isValid_next {d : Date} (valid : d.isValid = true) : d.next.isValid = true := by
  obtain ⟨first, last, start, stop⟩ := isValid_iff.mp valid
  rw [Date.next]
  split_ifs with inside before
  · exact isValid_iff.mpr ⟨first, last, Nat.le_add_left 1 _, inside⟩
  · exact isValid_iff.mpr ⟨Nat.le_add_left 1 _, before, Nat.le_refl 1, daysInMonth_pos _ _⟩
  · exact isValid_iff.mpr ⟨Nat.le_refl 1, by simp, Nat.le_refl 1, daysInMonth_pos _ _⟩

def daysBefore (year : Int) : Int := 365 * year + year / 4 - year / 100 + year / 400 - cycleOffset

def yearLength (year : Int) : Int := if isLeapYear (year + 1) then 366 else 365

theorem daysBefore_succ (year : Int) : daysBefore (year + 1) = daysBefore year + yearLength year := by
  simp only [daysBefore, yearLength]
  split_ifs with leap
  · have := isLeapYear_iff.mp leap
    omega
  · have := mt isLeapYear_iff.mpr leap
    omega

theorem daysBefore_mono {a b : Int} (le : a ≤ b) : daysBefore a ≤ daysBefore b := by
  simp only [daysBefore]
  omega

theorem year_unique {a b m n : Int} (low : 0 ≤ m) (high : m < yearLength a) (low' : 0 ≤ n)
    (high' : n < yearLength b) (same : daysBefore a + m = daysBefore b + n) : a = b ∧ m = n := by
  have next := daysBefore_succ a
  have next' := daysBefore_succ b
  rcases Int.lt_trichotomy a b with less | rfl | more
  · have := daysBefore_mono (a := a + 1) less
    omega
  · exact ⟨rfl, by omega⟩
  · have := daysBefore_mono (a := b + 1) more
    omega

theorem yearLength_cases (year : Int) : yearLength year = 365 ∨ yearLength year = 366 := by
  rw [yearLength]
  split_ifs
  · exact .inr rfl
  · exact .inl rfl

def marchMonth (month : Nat) : Int := if month ≤ 2 then month + 9 else month - 3

theorem marchMonth_cases {month : Nat} (first : 1 ≤ month) (last : month ≤ 12) :
    month ≤ 2 ∧ marchMonth month = month + 9 ∨ 2 < month ∧ marchMonth month = month - 3 := by
  rw [marchMonth]
  split_ifs <;> omega

/-- A month ends where the next one begins, and February with the year. -/
theorem month_end (year : Int) {month : Nat} (first : 1 ≤ month) (last : month ≤ 12) :
    (153 * marchMonth month + 2) / 5 + daysInMonth year month =
      if month = 2 then yearLength (year - 1) else (153 * (marchMonth month + 1) + 2) / 5 := by
  by_cases february : month = 2
  · subst february
    cases leap : isLeapYear year <;> simp [marchMonth, daysInMonth, yearLength, leap]
  · rw [if_neg february]
    interval_cases month
    case neg.«2» => exact absurd rfl february
    all_goals rfl

def Date.marchYear (d : Date) : Int := if d.month ≤ 2 then d.year - 1 else d.year

def Date.marchDay (d : Date) : Int := (153 * marchMonth d.month + 2) / 5 + d.day - 1

theorem toDays_eq (d : Date) : d.toDays = daysBefore d.marchYear + d.marchDay := by
  simp only [Date.toDays, Date.marchYear, Date.marchDay, marchMonth, daysBefore, cycleDays]
  split_ifs <;> omega

theorem marchDay_bounds {d : Date} (valid : d.isValid = true) :
    0 ≤ d.marchDay ∧ d.marchDay < yearLength d.marchYear := by
  obtain ⟨first, last, start, stop⟩ := isValid_iff.mp valid
  have ends := month_end d.year first last
  have place := marchMonth_cases first last
  have long := yearLength_cases d.marchYear
  rw [Date.marchDay]
  split_ifs at ends with february
  · have year : d.marchYear = d.year - 1 := by rw [Date.marchYear, if_pos (by omega)]
    rw [year]
    omega
  · omega

theorem dateOf_month (year : Int) {k day : Int} (start : 1 ≤ day)
    (stop : (153 * k + 2) / 5 + day ≤ (153 * (k + 1) + 2) / 5) :
    dateOf year ((153 * k + 2) / 5 + day - 1) =
      if k < 10 then ⟨year, (k + 3).toNat, day.toNat⟩ else ⟨year + 1, (k - 9).toNat, day.toNat⟩ := by
  have month : (5 * ((153 * k + 2) / 5 + day - 1) + 2) / 153 = k := by omega
  have inside : (153 * k + 2) / 5 + day - 1 - (153 * k + 2) / 5 + 1 = day := by omega
  rw [dateOf]
  simp only [month, inside]

theorem dateOf_march {d : Date} (valid : d.isValid = true) :
    dateOf d.marchYear d.marchDay = d := by
  obtain ⟨first, last, start, stop⟩ := isValid_iff.mp valid
  have ends := month_end d.year first last
  have place := marchMonth_cases first last
  have long := yearLength_cases (d.year - 1)
  have short : (153 * marchMonth d.month + 2) / 5 + d.day ≤
      (153 * (marchMonth d.month + 1) + 2) / 5 := by
    split_ifs at ends <;> omega
  rw [Date.marchDay, dateOf_month _ (by omega) short, Date.marchYear]
  rcases place with ⟨early, place⟩ | ⟨late, place⟩
  · rw [place, if_neg (by omega), if_pos early]
    simp
  · rw [place, if_pos (by omega), if_neg (by omega)]
    simp

theorem daysBefore_eq (year : Int) : daysBefore year =
    year / 400 * cycleDays + (365 * (year % 400) + year % 400 / 4 - year % 400 / 100) -
      cycleOffset := by
  simp only [daysBefore, cycleDays]
  omega

theorem ofDays_march (n : Int) : ∃ year day, Date.ofDays n = dateOf year day ∧
    n = daysBefore year + day ∧ 0 ≤ day ∧ day < yearLength year := by
  obtain ⟨h, q, r, t, split, date⟩ := ofDays_eq n
  have days := toDays_ofDays n
  obtain ⟨whole, centuries, spans, years, inside, leap⟩ := split
  refine ⟨_, t, date, ?_, inside.1, ?_⟩
  · rw [date, toDays_dateOf inside.1 inside.2] at days
    rw [daysBefore_eq]
    omega
  · rw [yearLength]
    split_ifs with is_leap
    · omega
    · have := mt isLeapYear_iff.mpr is_leap
      omega

theorem ofDays_toDays {d : Date} (valid : d.isValid = true) : Date.ofDays d.toDays = d := by
  obtain ⟨year, day, date, number, low, high⟩ := ofDays_march d.toDays
  obtain ⟨start, stop⟩ := marchDay_bounds valid
  obtain ⟨rfl, rfl⟩ := year_unique low high start stop (number.symm.trans (toDays_eq d))
  rw [date, dateOf_march valid]

/-- A date lies between the first of January of its year and that of the next. -/
theorem year_bounds {d : Date} (valid : d.isValid = true) :
    daysBefore (d.year - 1) + 306 ≤ d.toDays ∧ d.toDays < daysBefore d.year + 306 := by
  obtain ⟨first, last, start, stop⟩ := isValid_iff.mp valid
  obtain ⟨low, high⟩ := marchDay_bounds valid
  have ends := month_end d.year first last
  have length := yearLength_cases (d.year - 1)
  have next := daysBefore_succ (d.year - 1)
  rw [sub_add_cancel] at next
  rw [toDays_eq]
  rcases marchMonth_cases first last with ⟨early, place⟩ | ⟨late, place⟩
  · have began : d.marchYear = d.year - 1 := by rw [Date.marchYear, if_pos early]
    have day : 306 ≤ d.marchDay := by
      rw [Date.marchDay, place]
      omega
    rw [began] at high ⊢
    omega
  · have began : d.marchYear = d.year := by rw [Date.marchYear, if_neg (by omega)]
    have day : d.marchDay < 306 := by
      rw [if_neg (by omega)] at ends
      rw [Date.marchDay]
      omega
    rw [began]
    omega

theorem toDays_january (year : Int) : (Date.mk year 1 1).toDays = daysBefore (year - 1) + 306 := by
  simp [toDays_eq, Date.marchYear, Date.marchDay, marchMonth]

theorem le_toDays_iff {d : Date} (valid : d.isValid = true) (year : Int) :
    (Date.mk year 1 1).toDays ≤ d.toDays ↔ year ≤ d.year := by
  obtain ⟨begun, ended⟩ := year_bounds valid
  rw [toDays_january]
  constructor
  · intro le
    by_contra later
    have := daysBefore_mono (a := d.year) (b := year - 1) (by omega)
    omega
  · intro le
    have := daysBefore_mono (a := year - 1) (b := d.year - 1) (by omega)
    omega

theorem toDays_next {d : Date} (valid : d.isValid = true) : d.next.toDays = d.toDays + 1 := by
  obtain ⟨first, last, start, stop⟩ := isValid_iff.mp valid
  have ends := month_end d.year first last
  rw [Date.next]
  split_ifs with inside before
  · simp only [toDays_eq, Date.marchYear, Date.marchDay]
    omega
  · by_cases february : d.month = 2
    · have year := daysBefore_succ (d.year - 1)
      rw [sub_add_cancel] at year
      rw [if_pos february] at ends
      have here : d.toDays = daysBefore (d.year - 1) + d.marchDay := by
        rw [toDays_eq, Date.marchYear, if_pos (by omega)]
      have after : Date.toDays ⟨d.year, d.month + 1, 1⟩ = daysBefore d.year := by
        simp [toDays_eq, Date.marchYear, Date.marchDay, marchMonth, february]
      rw [here, after, Date.marchDay]
      omega
    · have later : marchMonth (d.month + 1) = marchMonth d.month + 1 := by
        simp only [marchMonth]
        split_ifs <;> omega
      rw [if_neg february] at ends
      simp only [toDays_eq, Date.marchYear, Date.marchDay, later]
      split_ifs <;> omega
  · have december : d.month = 12 := by omega
    have full : d.day = 31 := by
      rw [december] at inside stop
      have : daysInMonth d.year 12 = 31 := rfl
      omega
    simp [toDays_eq, Date.marchYear, Date.marchDay, marchMonth, december, full, add_assoc]

/-- The date of the next day follows, from any day on and before 1970 as well. -/
theorem ofDays_succ (n : Int) : Date.ofDays (n + 1) = (Date.ofDays n).next := by
  have valid := isValid_ofDays n
  have days := toDays_next valid
  rw [toDays_ofDays] at days
  rw [← days, ofDays_toDays (isValid_next valid)]

/-- The proleptic Gregorian calendar, as the dates of the days from 1970-01-01 on and before it: one
follows the other, and each leads back to its day. -/
structure Gregorian (date : Int → Date) (days : Date → Int) : Prop where
  start : date 0 = ⟨1970, 1, 1⟩
  next : ∀ n, date (n + 1) = (date n).next
  valid : ∀ n, (date n).isValid = true
  back : ∀ n, days (date n) = n
  onto : ∀ d, d.isValid = true → date (days d) = d

theorem gregorian : Gregorian Date.ofDays Date.toDays where
  start := by decide
  next := ofDays_succ
  valid := isValid_ofDays
  back := toDays_ofDays
  onto _ := ofDays_toDays

end RecordLedger.Calendar
