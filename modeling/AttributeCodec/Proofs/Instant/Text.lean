import AttributeCodec.Hook
import AttributeCodec.Proofs.Instant.Scan

/-! The civil times of a moment, one for each offset, and the texts that are read as the moment. -/

namespace AttributeCodec.Instant

attribute [local instance (high)] instPowNat

section Civil

variable (instant : Instant)

def secondsAt (offset : Int) : Int := instant.seconds + offset * 60

def dateAt (offset : Int) : Date := .ofDayNumber (instant.secondsAt offset / 86400 + epochDay)

def secondOfDayAt (offset : Int) : Nat := (instant.secondsAt offset % 86400).toNat

def shownSecond : Nat :=
  let second := (instant.seconds % 60).toNat
  if instant.isLeapSecond then second + 1 else second

def shownNanos : Nat := if instant.isLeapSecond then instant.nanos - 1000000000 else instant.nanos

theorem secondOfDayAt_lt (offset : Int) : instant.secondOfDayAt offset < 86400 := by
  simp only [secondOfDayAt]
  omega

theorem secondOfDayAt_mod (offset : Int) : instant.secondOfDayAt offset % 60 = (instant.seconds % 60).toNat := by
  simp only [secondOfDayAt, secondsAt]
  omega

theorem shownSecond_le : instant.shownSecond ≤ 60 := by
  simp only [shownSecond]
  split <;> omega

theorem shownNanos_lt : instant.shownNanos < 1000000000 := by
  have hlt := instant.nanos_lt
  simp only [shownNanos, isLeapSecond, decide_eq_true_eq]
  split <;> omega

def clockAt (offset : Int) : ClockTime where
  hour := instant.secondOfDayAt offset / 3600
  minute := instant.secondOfDayAt offset / 60 % 60
  second := instant.shownSecond
  nanos := instant.shownNanos
  hour_lt := by
    have hlt := instant.secondOfDayAt_lt offset
    omega
  minute_lt := by omega
  second_le := instant.shownSecond_le
  nanos_lt := instant.shownNanos_lt

section InPlace

variable {instant : Instant} (hplace : instant.LeapInPlace)

include hplace

theorem min_shownSecond : min instant.shownSecond 59 = (instant.seconds % 60).toNat := by
  simp only [LeapInPlace] at hplace
  simp only [shownSecond, isLeapSecond, decide_eq_true_eq]
  split <;> omega

theorem secondOfDay_clockAt (offset : Int) : (instant.clockAt offset).secondOfDay = instant.secondOfDayAt offset := by
  have hmod := instant.secondOfDayAt_mod offset
  have hmin := min_shownSecond hplace
  simp only [ClockTime.secondOfDay, clockAt]
  omega

theorem shownSecond_eq_iff : instant.shownSecond = 60 ↔ instant.isLeapSecond = true := by
  simp only [LeapInPlace] at hplace
  simp only [shownSecond, isLeapSecond, decide_eq_true_eq]
  split <;> omega

theorem nanosOfSecond_clockAt (offset : Int) : (instant.clockAt offset).nanosOfSecond = instant.nanos := by
  simp only [ClockTime.nanosOfSecond, clockAt, shownSecond_eq_iff hplace, shownNanos, isLeapSecond, decide_eq_true_eq]
  split <;> omega

end InPlace

theorem shown_carried :
    instant.carried.shownSecond = instant.shownSecond ∧ instant.carried.shownNanos = instant.shownNanos := by
  by_cases hplace : instant.LeapInPlace
  · rw [carried_of_leapInPlace hplace]
    exact ⟨rfl, rfl⟩
  · have hlt := instant.nanos_lt
    obtain ⟨hleap, hsecond⟩ := not_leapInPlace_iff.mp hplace
    have hpast : ¬1000000000 ≤ instant.nanos - 1000000000 := by omega
    constructor
    · simp only [shownSecond, isLeapSecond, decide_eq_true_eq, seconds_carried hplace, nanos_carried hplace,
        if_pos hleap, if_neg hpast]
      omega
    · simp only [shownNanos, isLeapSecond, decide_eq_true_eq, nanos_carried hplace, if_pos hleap, if_neg hpast]

theorem secondsAt_carried_div (offset : Int) :
    instant.carried.secondsAt offset / 60 = instant.secondsAt offset / 60 := by
  by_cases hplace : instant.LeapInPlace
  · rw [carried_of_leapInPlace hplace]
  · obtain ⟨-, hsecond⟩ := not_leapInPlace_iff.mp hplace
    simp only [secondsAt, seconds_carried hplace]
    omega

theorem dateAt_carried (offset : Int) : instant.carried.dateAt offset = instant.dateAt offset := by
  have hminute := instant.secondsAt_carried_div offset
  have hday : instant.carried.secondsAt offset / 86400 = instant.secondsAt offset / 86400 := by omega
  rw [dateAt, hday, dateAt]

theorem clockAt_carried (offset : Int) : instant.carried.clockAt offset = instant.clockAt offset := by
  have hminute := instant.secondsAt_carried_div offset
  have hminutes : instant.carried.secondOfDayAt offset / 60 = instant.secondOfDayAt offset / 60 := by
    simp only [secondOfDayAt]
    omega
  have hhours : instant.carried.secondOfDayAt offset / 3600 = instant.secondOfDayAt offset / 3600 := by omega
  obtain ⟨hsecond, hnanos⟩ := instant.shown_carried
  simp only [clockAt, hsecond, hnanos, hminutes, hhours]

def civil (offset : Int) (hoffset : -1440 < offset ∧ offset < 1440)
    (hyear : 0 ≤ (instant.dateAt offset).year ∧ (instant.dateAt offset).year ≤ 9999) : CivilTime where
  date := instant.dateAt offset
  clock := instant.clockAt offset
  offset := offset
  date_exists := Date.exists_ofDayNumber _
  year_bounds := hyear
  offset_bounds := hoffset

theorem instant_civil_of_leapInPlace {instant : Instant} (hplace : instant.LeapInPlace) {offset : Int}
    (hoffset : -1440 < offset ∧ offset < 1440)
    (hyear : 0 ≤ (instant.dateAt offset).year ∧ (instant.dateAt offset).year ≤ 9999) :
    (instant.civil offset hoffset hyear).instant = instant := by
  have hday : (instant.dateAt offset).dayNumber = instant.secondsAt offset / 86400 + epochDay :=
    Date.dayNumber_ofDayNumber _
  have hseconds : (instant.civil offset hoffset hyear).seconds = instant.seconds := by
    simp only [CivilTime.seconds, civil, hday, secondOfDay_clockAt hplace, secondOfDayAt, secondsAt]
    omega
  have hnanos := nanosOfSecond_clockAt hplace offset
  obtain ⟨seconds, nanos⟩ := instant
  simp only [CivilTime.instant, Instant.mk.injEq]
  exact ⟨hseconds, hnanos⟩

theorem instant_civil {offset : Int} (hoffset : -1440 < offset ∧ offset < 1440)
    (hyear : 0 ≤ (instant.dateAt offset).year ∧ (instant.dateAt offset).year ≤ 9999) :
    (instant.civil offset hoffset hyear).instant = instant.carried := by
  have hcarried : 0 ≤ (instant.carried.dateAt offset).year ∧ (instant.carried.dateAt offset).year ≤ 9999 := by
    rwa [dateAt_carried]
  have hcivil : instant.carried.civil offset hoffset hcarried = instant.civil offset hoffset hyear := by
    simp only [civil, dateAt_carried, clockAt_carried]
  rw [← hcivil]
  exact instant_civil_of_leapInPlace instant.leapInPlace_carried hoffset hcarried

end Civil

section Text

variable {instant : Instant}

theorem dateAt_zero : instant.dateAt 0 = instant.date := by
  rw [dateAt, secondsAt, Int.zero_mul, Int.add_zero, date]

theorem secondOfDayAt_zero : instant.secondOfDayAt 0 = (instant.seconds % 86400).toNat := by
  rw [secondOfDayAt, secondsAt, Int.zero_mul, Int.add_zero]

theorem chars_eq :
    instant.chars = yearText instant.date.year ++ '-' :: (padded 2 instant.date.month ++ '-' ::
      (padded 2 instant.date.day ++ 'T' :: ((instant.clockAt 0).chars ++ '.' ::
        (padded 9 instant.shownNanos ++ ['Z'])))) := by
  have hsecond := instant.secondOfDayAt_mod 0
  simp only [chars, ← secondOfDayAt_zero, hsecond, ClockTime.chars, clockAt, shownSecond, shownNanos,
    List.append_assoc, List.cons_append]
  split
  · rfl
  · rfl

theorem date_carried (instant : Instant) : instant.carried.date = instant.date := by
  rw [← dateAt_zero, dateAt_carried, dateAt_zero]

theorem text_carried (instant : Instant) : instant.carried.text = instant.text := by
  rw [text, chars_eq, date_carried, clockAt_carried, instant.shown_carried.2, ← chars_eq, text]

/-- What the text of a moment stands for: a moment of the same date and text, with any leap second at the end of its
minute. -/
structure Carries (instant : Instant) : Prop where
  text : instant.carried.text = instant.text
  date : instant.carried.date = instant.date
  inPlace : instant.carried.LeapInPlace
  self_iff : instant.carried = instant ↔ instant.LeapInPlace

theorem carries (instant : Instant) : instant.Carries :=
  ⟨instant.text_carried, instant.date_carried, instant.leapInPlace_carried, carried_eq_self_iff⟩

theorem chars_eq_civil (hyear : 0 ≤ (instant.dateAt 0).year ∧ (instant.dateAt 0).year ≤ 9999) :
    instant.chars =
      (instant.civil 0 (by decide) hyear).chars 'T' ('.' :: (padded 9 instant.shownNanos ++ [])) ['Z'] := by
  rw [chars_eq, ← dateAt_zero, yearText, if_pos hyear]
  simp only [CivilTime.chars, Date.chars, civil, List.append_assoc, List.cons_append, List.nil_append]

theorem read_eq_ok_iff {text : String} :
    read text = .ok instant ↔ ∃ time : CivilTime, time.Spelled text.toList ∧ time.instant = instant := by
  rw [← parse_eq_ok_iff, read]
  cases parse text <;> simp [Except.mapError]

theorem leapInPlace_of_read {text : String} (h : read text = .ok instant) : instant.LeapInPlace := by
  obtain ⟨time, -, rfl⟩ := read_eq_ok_iff.mp h
  exact time.leapInPlace_instant

theorem read_text (hyear : 0 ≤ instant.date.year ∧ instant.date.year ≤ 9999) :
    read instant.text = .ok instant.carried := by
  rw [← dateAt_zero] at hyear
  refine read_eq_ok_iff.mpr ⟨instant.civil 0 (by decide) hyear, ?_, instant.instant_civil _ hyear⟩
  rw [text, String.toList_ofList, chars_eq_civil hyear]
  exact .intro (by decide) (.nine (by simp)) (.universal (by decide))

theorem read_civil (instant : Instant) {offset : Int} (hoffset : -1440 < offset ∧ offset < 1440)
    (hyear : 0 ≤ (instant.dateAt offset).year ∧ (instant.dateAt offset).year ≤ 9999) :
    instant.Carries ∧ (∃ zone, Zone offset zone) ∧
      ∀ {separator : Char} {fraction zone : List Char}, separator ∈ ['T', 't', ' '] →
        Fraction instant.shownNanos fraction → Zone offset zone →
          read (.ofList ((instant.civil offset hoffset hyear).chars separator fraction zone)) = .ok instant.carried := by
  refine ⟨instant.carries, exists_zone hoffset, fun hseparator hfraction hzone => ?_⟩
  refine read_eq_ok_iff.mpr ⟨instant.civil offset hoffset hyear, ?_, instant.instant_civil hoffset hyear⟩
  rw [String.toList_ofList]
  exact .intro hseparator hfraction hzone

def leapSecond1972 : Instant := ⟨78796799, 1250000000, by decide, by decide, by decide⟩

def hourAhead1972 : CivilTime := leapSecond1972.civil 60 (by decide) (by decide +kernel)

def dayBehind1972 : CivilTime := leapSecond1972.civil (-1439) (by decide) (by decide +kernel)

theorem read_civil_leap_second :
    (hourAhead1972.date = ⟨1972, 7, 1⟩ ∧ read "1972-07-01t00:59:60.2500000007+01:00" = .ok leapSecond1972) ∧
      (dayBehind1972.date = ⟨1972, 6, 30⟩ ∧ read "1972-06-30 00:00:60.25-23:59" = .ok leapSecond1972) := by
  have hlong : Fraction leapSecond1972.shownNanos ('.' :: (padded 9 leapSecond1972.shownNanos ++ ['7'])) :=
    .nine (List.forall_mem_singleton.mpr rfl)
  have hshort : Fraction leapSecond1972.shownNanos ['.', '2', '5'] :=
    .short (by decide) (by decide +kernel : ['2', '5'] ++ List.replicate 7 '0' = _)
  have hahead : Zone 60 ('+' :: hoursMinutes 60) := Zone.ahead (show 60 < 1440 by decide)
  have hbehind : Zone (-1439) ('-' :: hoursMinutes 1439) := Zone.behind (by decide) (show 1439 < 1440 by decide)
  have haheadText : hourAhead1972.chars 't' ('.' :: (padded 9 leapSecond1972.shownNanos ++ ['7']))
      ('+' :: hoursMinutes 60) = "1972-07-01t00:59:60.2500000007+01:00".toList := by decide +kernel
  have hbehindText : dayBehind1972.chars ' ' ['.', '2', '5'] ('-' :: hoursMinutes 1439) =
      "1972-06-30 00:00:60.25-23:59".toList := by decide +kernel
  have haheadBounds : -1440 < (60 : Int) ∧ (60 : Int) < 1440 := by decide
  have hbehindBounds : -1440 < (-1439 : Int) ∧ (-1439 : Int) < 1440 := by decide
  refine ⟨⟨by decide +kernel, ?_⟩, by decide +kernel, ?_⟩
  · obtain ⟨hcarries, -, hreads⟩ := leapSecond1972.read_civil haheadBounds (by decide +kernel)
    have hread : read (.ofList (hourAhead1972.chars 't' _ _)) = _ := hreads (by decide) hlong hahead
    rwa [haheadText, String.ofList_toList, hcarries.self_iff.mpr (by decide)] at hread
  · obtain ⟨hcarries, -, hreads⟩ := leapSecond1972.read_civil hbehindBounds (by decide +kernel)
    have hread : read (.ofList (dayBehind1972.chars ' ' _ _)) = _ := hreads (by decide) hshort hbehind
    rwa [hbehindText, String.ofList_toList, hcarries.self_iff.mpr (by decide)] at hread

-- A leap second in the midst of a minute, and the moment that it is taken for.
def strayLeap : Instant := ⟨1704067204, 1333333333, by decide, by decide, by decide⟩

def secondAfter : Instant := ⟨1704067205, 333333333, by decide, by decide, by decide⟩

theorem carried_strayLeap : strayLeap.carried = secondAfter ∧ strayLeap ≠ secondAfter := by decide

theorem year_strayLeap : 0 ≤ strayLeap.date.year ∧ strayLeap.date.year ≤ 9999 := by decide +kernel

theorem read_strayLeap : read strayLeap.text = .ok secondAfter ∧ read strayLeap.text ≠ .ok strayLeap := by
  obtain ⟨hcarried, hne⟩ := carried_strayLeap
  have hread := read_text year_strayLeap
  rw [hread, hcarried]
  exact ⟨rfl, fun h => hne (Except.ok.inj h).symm⟩

def strayCivil : CivilTime := strayLeap.civil 0 (by decide) (by decide +kernel)

theorem strayCivil_read_as_secondAfter :
    String.ofList (strayCivil.chars 'T' ('.' :: padded 9 strayLeap.shownNanos) ['Z']) =
        "2024-01-01T00:00:05.333333333Z" ∧
      read "2024-01-01T00:00:05.333333333Z" = .ok secondAfter ∧
      read "2024-01-01T00:00:05.333333333Z" ≠ .ok strayLeap := by
  have htext : strayLeap.text = "2024-01-01T00:00:05.333333333Z" := by decide +kernel
  rw [← htext]
  refine ⟨?_, read_strayLeap⟩
  rw [htext]
  decide +kernel

theorem isEmpty_text (instant : Instant) : instant.text.isEmpty = false := by
  have hne : instant.text ≠ "" := by
    intro h
    have hchars : instant.chars = [] := by simpa [text] using h
    simp [chars] at hchars
  simpa using hne

end Text

end AttributeCodec.Instant
