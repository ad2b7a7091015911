import RecordLedger.Malformed
import RecordLedger.Proofs.Calendar
import RecordLedger.Proofs.Text.Numerals
import RecordLedger.Proofs.Text.Octets

/-! Instants of four-digit years, read back from their text. -/
namespace RecordLedger.Instant

open Text.Numeral (padded padded_digits digitChar value)

theorem readDigits_append {ds : List Nat} (small : ∀ d ∈ ds, d < 10) (n : Nat) (cs : List Char) :
    readDigits ds.length n (ds.map digitChar ++ cs) =
      .ok (ds.foldl (fun n d => 10 * n + d) n, cs) := by
  induction ds generalizing n with
  | nil => rfl
  | cons d ds ih =>
    obtain ⟨first, rest⟩ := List.forall_mem_cons.mp small
    simp only [List.length_cons, List.map_cons, List.cons_append, readDigits,
      Text.Numeral.digit?_digitChar first, ih rest, List.foldl_cons]

theorem readDigits_padded {n width : Nat} (positive : 0 < width) (fits : n < 10 ^ width)
    (cs : List Char) : readDigits width 0 (padded width n ++ cs) = .ok (n, cs) := by
  obtain ⟨ds, shape, rfl, small, same⟩ := padded_digits positive fits
  rw [shape, readDigits_append small]
  exact congrArg (fun n => Except.ok (n, cs)) same

/-- Six digits of the second are its microseconds. -/
theorem readNanos_padded {n : Nat} (fits : n < 10 ^ 6) {cs : List Char}
    (stops : Text.Numeral.Stops cs) :
    readNanos ('.' :: (padded 6 n ++ cs)) = .ok (1000 * n, cs) := by
  obtain ⟨ds, shape, six, small, same⟩ := padded_digits (by decide) fits
  have taken := Text.Numeral.takeDigits_append small stops
  rw [shape, readNanos, taken]
  obtain ⟨d, rest, rfl⟩ := List.exists_cons_of_length_eq_add_one six
  have nine : ((d :: rest) ++ List.replicate (9 - (d :: rest).length) 0).take 9 =
      (d :: rest) ++ [0, 0, 0] := by
    rw [six, List.take_of_length_le (by rw [List.length_append, six]; rfl)]
    rfl
  have thousand : value 10 ((d :: rest) ++ [0, 0, 0]) = 1000 * value 10 (d :: rest) := by
    simp only [value, List.foldl_append, List.foldl_cons, List.foldl_nil]
    omega
  simp only [nine, thousand, same]

def yearOf (micros : Int) : Int := (Calendar.Date.ofDays (micros / microsPerDay)).year

def FourDigit (micros : Int) : Prop := 0 ≤ yearOf micros ∧ yearOf micros ≤ 9999

instance (micros : Int) : Decidable (FourDigit micros) :=
  inferInstanceAs (Decidable (_ ∧ _))

theorem length_padded {n width : Nat} (positive : 0 < width) (fits : n < 10 ^ width) :
    (padded width n).length = width := by
  obtain ⟨ds, shape, length, _⟩ := padded_digits positive fits
  rw [shape, List.length_map, length]

/-- A date and a time of day in UTC are read as they are written. -/
theorem readCalendar_parts {year month day hour minute second micro : Nat} (years : year < 10000)
    (valid : (Calendar.Date.mk year month day).isValid = true) (hours : hour < 24)
    (minutes : minute < 60) (seconds : second < 60) (micros : micro < 1000000) :
    readCalendar (padded 4 year ++ '-' :: (padded 2 month ++ '-' :: (padded 2 day ++ 'T' ::
      (padded 2 hour ++ ':' :: (padded 2 minute ++ ':' :: (padded 2 second ++ '.' ::
      (padded 6 micro ++ ['Z']))))))) =
      .ok (((Calendar.Date.mk year month day).toDays * 86400 + hour * 3600 + minute * 60 + second) *
        microsPerSecond + micro) := by
  have inside := valid
  simp only [Calendar.Date.isValid, Bool.and_eq_true, decide_eq_true_eq] at inside
  obtain ⟨⟨⟨_, month_le⟩, _⟩, day_le⟩ := inside
  have day_le := Nat.le_trans day_le (Calendar.daysInMonth_le year month)
  have four (cs : List Char) : readDigits 4 0 (padded 4 year ++ cs) = .ok (year, cs) :=
    readDigits_padded (by decide) years cs
  have two (n : Nat) (fits : n < 100) (cs : List Char) :
      readDigits 2 0 (padded 2 n ++ cs) = .ok (n, cs) := readDigits_padded (by decide) fits cs
  have nanos : readNanos ('.' :: (padded 6 micro ++ ['Z'])) = .ok (1000 * micro, ['Z']) :=
    readNanos_padded micros (by rintro c ⟨⟩; rfl)
  have clock : (decide (23 < hour) || decide (59 < minute) || decide (60 < second)) = false := by
    simp only [Bool.or_eq_false_iff, decide_eq_false_iff_not]
    omega
  have utc : readOffset ['Z'] = .ok (0, []) := rfl
  have near : ¬ 86400 ≤ (0 : Int).natAbs := by decide
  rw [readCalendar, if_neg]
  · simp only [bind, Except.bind, pure, Except.pure, four, two month (by omega),
      two day (by omega), two hour (by omega), two minute (by omega), two second (by omega),
      readMark, beq_self_eq_true, Bool.true_or, if_true, valid, Bool.not_true, Bool.false_eq_true,
      if_false, nanos, clock, utc, List.isEmpty_nil, near]
    refine congrArg Except.ok ?_
    simp only [microsPerSecond]
    omega
  · refine Nat.not_lt.mpr (Nat.le_trans ?_ (Text.length_le_size _))
    have front : (padded 4 year).length = 4 := length_padded (by decide) years
    have pair (n : Nat) (fits : n < 100) : (padded 2 n).length = 2 := length_padded (by decide) fits
    simp only [List.length_append, List.length_cons, front, pair month (by omega),
      pair day (by omega), pair hour (by omega), pair minute (by omega), pair second (by omega)]
    omega

theorem readCalendar_text {micros : Int} (years : FourDigit micros) :
    readCalendar (calendarText micros) = .ok micros := by
  obtain ⟨low, high⟩ := years
  have valid := Calendar.isValid_ofDays (micros / microsPerDay)
  have days := Calendar.toDays_ofDays (micros / microsPerDay)
  rw [yearOf] at low high
  simp only [calendarText, yearText, low, high, and_self, if_true]
  generalize Calendar.Date.ofDays (micros / microsPerDay) = date at *
  obtain ⟨year, month, day⟩ := date
  obtain ⟨year, rfl⟩ := Int.eq_ofNat_of_zero_le low
  have time : 0 ≤ micros % microsPerDay ∧ micros % microsPerDay < microsPerDay := by
    simp only [microsPerDay]
    omega
  have nonneg : 0 ≤ micros % microsPerDay := time.1
  obtain ⟨rest, clock⟩ := Int.eq_ofNat_of_zero_le nonneg
  rw [clock, Int.toNat_natCast, Int.toNat_natCast]
  simp only [microsPerDay] at days clock time
  have few : year < 10000 := by
    have : (year : Int) ≤ 9999 := high
    omega
  have read := readCalendar_parts few valid (by omega : rest / 3600000000 < 24)
    (by omega : rest / 60000000 % 60 < 60) (by omega : rest / 1000000 % 60 < 60)
    (by omega : rest % 1000000 < 1000000)
  have whole : ((Calendar.Date.mk year month day).toDays * 86400 +
      (rest / 3600000000 : Nat) * 3600 + (rest / 60000000 % 60 : Nat) * 60 +
      (rest / 1000000 % 60 : Nat)) * microsPerSecond + (rest % 1000000 : Nat) = micros := by
    rw [days, microsPerSecond]
    omega
  rw [whole] at read
  simpa only [List.append_assoc, List.singleton_append, List.cons_append, List.nil_append]
    using read

/-- A four-digit year is far inside the calendar's range. -/
theorem near_of_fourDigit {micros : Int} (years : FourDigit micros) :
    firstDated ≤ micros ∧ micros ≤ lastDated := by
  obtain ⟨low, high⟩ := years
  have near := Calendar.days_near (micros / microsPerDay) low high
  have first : firstDated = -8334601228800000000 := by decide
  have last : lastDated = 8210266876799999999 := by decide
  rw [first, last]
  simp only [microsPerDay] at near
  omega

theorem dated_of_fourDigit {t : Instant} (years : FourDigit t.micros) : t.dated = t := by
  rw [dated, if_pos (near_of_fourDigit years)]

/-- A text begins with the digits of the year and a hyphen, and ends with the mark of UTC. -/
theorem calendarText_ends {micros : Int} (years : FourDigit micros) :
    ∃ d ds rest, calendarText micros = digitChar d :: (ds.map digitChar ++ '-' :: rest) ∧
      (∀ x ∈ d :: ds, x < 10) ∧ (calendarText micros).getLast? = some 'Z' := by
  obtain ⟨low, high⟩ := years
  rw [yearOf] at low high
  obtain ⟨ds, shape, four, small, _⟩ := padded_digits (by decide : 0 < 4)
    (by omega : (Calendar.Date.ofDays (micros / microsPerDay)).year.toNat < 10 ^ 4)
  obtain ⟨d, ds, rfl⟩ := List.exists_cons_of_length_eq_add_one four
  have last : (calendarText micros).getLast? = some 'Z' := List.getLast?_concat
  rw [last]
  simp only [calendarText, yearText, low, high, and_self, if_true, shape, List.map_cons,
    List.cons_append, List.append_assoc, List.nil_append]
  exact ⟨d, ds, _, rfl, small, trivial⟩

/-- The text of an instant of a four-digit year stands for it. -/
theorem parse_text {t : Instant} (years : FourDigit t.micros) : Instant.parse t.text = .ok t := by
  obtain ⟨d, ds, rest, shape, small, last⟩ := calendarText_ends years
  obtain ⟨first, others⟩ := List.forall_mem_cons.mp small
  have digit : ∀ d ∈ List.range 10, Text.isBlank (digitChar d) = false ∧ digitChar d ≠ '-' ∧
      digitChar d ≠ '+' := by decide
  obtain ⟨solid, minus, plus⟩ := digit d (List.mem_range.mpr first)
  have trimmed : Text.trim (calendarText t.micros) = calendarText t.micros := by
    rw [shape] at last ⊢
    exact Text.trim_eq_self _ 'Z' _ solid rfl last
  have stops : Text.Numeral.Stops ('-' :: rest) := by rintro c ⟨⟩; rfl
  have taken := Text.Numeral.takeDigits_append small stops
  rw [List.map_cons, List.cons_append, ← shape] at taken
  have count : Text.Numeral.int? (calendarText t.micros) = none := by
    have none_left : Text.Numeral.nat? (calendarText t.micros) = none := by
      rw [Text.Numeral.nat?, taken]
    rw [shape] at none_left ⊢
    unfold Text.Numeral.int?
    split
    · next same => exact absurd (List.cons.inj same).1 minus
    · next same => exact absurd (List.cons.inj same).1 plus
    · rw [none_left]
      rfl
  have fits : ofMicros? t.micros = some t := by rw [ofMicros?, dif_pos t.fits]
  have read : Instant.read t.text = .ok t := by
    rw [Instant.read, text, dated_of_fourDigit years, String.toList_ofList, trimmed, count]
    simp only [Option.bind_none, readCalendar_text years, bind, Except.bind, fits]
  rw [Instant.parse, read]
  rfl

end RecordLedger.Instant
