import AttributeCodec.Proofs.Instant.Text

/-! Moments are in the order of the bytes of their texts: each column has a fixed width, and the earlier columns
decide first. -/

namespace AttributeCodec.Instant

open Text (byte)

attribute [local instance (high)] instPowNat

instance : LT Instant := ⟨fun instant later =>
  instant.seconds < later.seconds ∨ instant.seconds = later.seconds ∧ instant.nanos < later.nanos⟩

theorem lt_iff {instant later : Instant} :
    instant < later ↔
      instant.seconds < later.seconds ∨ instant.seconds = later.seconds ∧ instant.nanos < later.nanos :=
  Iff.rfl

theorem lt_trichotomy (instant later : Instant) : instant < later ∨ instant = later ∨ later < instant := by
  obtain ⟨seconds, nanos⟩ := instant
  obtain ⟨laterSeconds, laterNanos⟩ := later
  simp only [lt_iff, mk.injEq]
  omega

theorem byte_digitChar_lt {m n : Nat} (hn : n < 10) (h : m < n) :
    byte (Nat.digitChar m) < byte (Nat.digitChar n) := by
  have hdigits : (Nat.digitChar m).isDigit = true ∧ (Nat.digitChar n).isDigit = true := by
    simp
    omega
  rw [UInt8.lt_iff_toNat_lt, Text.toNat_byte hdigits.1, Text.toNat_byte hdigits.2,
    Nat.toNat_digitChar_of_lt_ten (by omega), Nat.toNat_digitChar_of_lt_ten hn]
  omega

theorem paddedBytes_succ {width : Nat} (hwidth : 0 < width) (n : Nat) (rest : List UInt8) :
    paddedBytes (width + 1) n ++ rest = paddedBytes width (n / 10) ++ byte (Nat.digitChar (n % 10)) :: rest := by
  rw [paddedBytes, padded_succ hwidth, List.map_append, List.append_assoc]
  rfl

theorem paddedBytes_append_lt {width m n : Nat} (hwidth : 0 < width) (hn : n < 10 ^ width) (h : m < n)
    (rest others : List UInt8) : paddedBytes width m ++ rest < paddedBytes width n ++ others := by
  induction hwidth generalizing m n rest others with
  | refl =>
    have hone : ∀ d < 10, paddedBytes 1 d = [byte (Nat.digitChar d)] := by
      intro d hd
      simp [paddedBytes, padded, Nat.toDigits_of_lt_base hd]
    rw [hone m (by omega), hone n hn]
    exact List.cons_lt_cons_iff.mpr (.inl (byte_digitChar_lt hn h))
  | @step width hwidth ih =>
    rw [paddedBytes_succ hwidth, paddedBytes_succ hwidth]
    rw [Nat.pow_succ] at hn
    rcases Nat.lt_or_eq_of_le (Nat.div_le_div_right (c := 10) (Nat.le_of_lt h)) with hquotient | hquotient
    · exact ih (by omega) hquotient _ _
    · rw [hquotient]
      refine List.append_left_lt (List.cons_lt_cons_iff.mpr (.inl ?_))
      exact byte_digitChar_lt (by omega) (by omega)

theorem column_lt {width m n : Nat} (hwidth : 0 < width) (hn : n < 10 ^ width) (h : m ≤ n)
    {rest others : List UInt8} (hrest : m = n → rest < others) :
    paddedBytes width m ++ rest < paddedBytes width n ++ others := by
  rcases Nat.lt_or_eq_of_le h with h | rfl
  · exact paddedBytes_append_lt hwidth hn h rest others
  · exact List.append_left_lt (hrest rfl)

theorem mark_lt (mark : UInt8) {rest others : List UInt8} (h : rest < others) : mark :: rest < mark :: others :=
  List.cons_lt_cons_self.mpr h

def clockBytes (instant : Instant) : List UInt8 :=
  paddedBytes 2 (instant.clockAt 0).hour ++ 58 :: (paddedBytes 2 (instant.clockAt 0).minute ++ 58 ::
    (paddedBytes 2 instant.shownSecond ++ 46 :: (paddedBytes 9 instant.shownNanos ++ [90])))

theorem utf8_text {instant : Instant} (hyear : 0 ≤ instant.date.year ∧ instant.date.year ≤ 9999) :
    Text.utf8 instant.text =
      paddedBytes 4 instant.date.year.toNat ++ 45 :: (paddedBytes 2 instant.date.month ++ 45 ::
        (paddedBytes 2 instant.date.day ++ 84 :: instant.clockBytes)) := by
  rw [text, Text.utf8_eq, String.toList_ofList, chars_eq, yearText, if_pos hyear]
  simp only [ClockTime.chars, Text.bytes_append, Text.bytes_cons, bytes_padded, List.append_assoc]
  rfl

variable {instant later : Instant}

theorem shown_le (hplace : instant.LeapInPlace) (hlaterPlace : later.LeapInPlace) (h : instant < later)
    (hminute : instant.seconds / 60 = later.seconds / 60) :
    instant.shownSecond ≤ later.shownSecond ∧
      (instant.shownSecond = later.shownSecond → instant.shownNanos < later.shownNanos) := by
  rw [lt_iff] at h
  rw [LeapInPlace] at hplace hlaterPlace
  simp only [shownSecond, shownNanos, isLeapSecond, decide_eq_true_eq]
  split <;> split <;> omega

theorem clockBytes_lt (hplace : instant.LeapInPlace) (hlaterPlace : later.LeapInPlace) (h : instant < later)
    (hday : instant.seconds / 86400 = later.seconds / 86400) : instant.clockBytes < later.clockBytes := by
  have hhour := (later.clockAt 0).hour_lt
  have hminute := (later.clockAt 0).minute_lt
  have hsecond := later.shownSecond_le
  have hnanos := later.shownNanos_lt
  have htime : instant.secondOfDayAt 0 ≤ later.secondOfDayAt 0 := by
    rw [lt_iff] at h
    rw [secondOfDayAt_zero, secondOfDayAt_zero]
    omega
  have hhours : (instant.clockAt 0).hour ≤ (later.clockAt 0).hour := Nat.div_le_div_right htime
  refine column_lt (by decide) (by omega) hhours fun hhours => mark_lt 58 ?_
  have hminutes : (instant.clockAt 0).minute ≤ (later.clockAt 0).minute := by
    simp only [clockAt] at hhours ⊢
    omega
  refine column_lt (by decide) (by omega) hminutes fun hminutes => mark_lt 58 ?_
  have hminuteOfEpoch : instant.seconds / 60 = later.seconds / 60 := by
    simp only [clockAt, secondOfDayAt_zero] at hhours hminutes
    omega
  obtain ⟨hseconds, hnanosLt⟩ := shown_le hplace hlaterPlace h hminuteOfEpoch
  refine column_lt (by decide) (by omega) hseconds fun hseconds => mark_lt 46 ?_
  exact paddedBytes_append_lt (by decide) hnanos (hnanosLt hseconds) _ _

theorem utf8_text_lt (hplace : instant.LeapInPlace) (hlaterPlace : later.LeapInPlace)
    (hyear : 0 ≤ instant.date.year ∧ instant.date.year ≤ 9999)
    (hlater : 0 ≤ later.date.year ∧ later.date.year ≤ 9999) (h : instant < later) :
    Text.utf8 instant.text < Text.utf8 later.text := by
  have hexists : instant.date.Exists := Date.exists_ofDayNumber _
  have hlaterExists : later.date.Exists := Date.exists_ofDayNumber _
  have hnumber : instant.date.dayNumber = instant.seconds / 86400 + epochDay := Date.dayNumber_ofDayNumber _
  have hlaterNumber : later.date.dayNumber = later.seconds / 86400 + epochDay := Date.dayNumber_ofDayNumber _
  have hdays : instant.date.dayNumber ≤ later.date.dayNumber := by
    rw [lt_iff] at h
    omega
  have hyears := Date.year_le hexists hlaterExists hdays
  obtain ⟨hmonth, hday⟩ := Date.month_day_lt hlaterExists
  rw [utf8_text hyear, utf8_text hlater]
  refine column_lt (by decide) (by omega) (by omega) fun hyearNat => mark_lt 45 ?_
  have hyears : instant.date.year = later.date.year := by omega
  have hmonths := Date.month_le hexists hlaterExists hdays hyears
  refine column_lt (by decide) hmonth hmonths fun hmonths => mark_lt 45 ?_
  have hsub := Date.dayNumber_sub hyears hmonths
  refine column_lt (by decide) hday (by omega) fun hdayEq => mark_lt 84 ?_
  exact clockBytes_lt hplace hlaterPlace h (by omega)

theorem lt_iff_utf8_text_lt (hplace : instant.LeapInPlace) (hlaterPlace : later.LeapInPlace)
    (hyear : 0 ≤ instant.date.year ∧ instant.date.year ≤ 9999)
    (hlater : 0 ≤ later.date.year ∧ later.date.year ≤ 9999) :
    instant < later ↔ Text.utf8 instant.text < Text.utf8 later.text := by
  refine ⟨utf8_text_lt hplace hlaterPlace hyear hlater, fun h => ?_⟩
  rcases lt_trichotomy instant later with hlt | rfl | hgt
  · exact hlt
  · exact absurd h (List.lt_irrefl _)
  · exact absurd h (List.lt_asymm (utf8_text_lt hlaterPlace hplace hlater hyear hgt))

theorem text_eq_text_iff (hyear : 0 ≤ instant.date.year ∧ instant.date.year ≤ 9999)
    (hlater : 0 ≤ later.date.year ∧ later.date.year ≤ 9999) :
    instant.text = later.text ↔ instant.carried = later.carried := by
  constructor
  · intro h
    have hread := read_text hyear
    rw [h, read_text hlater] at hread
    exact (Except.ok.inj hread).symm
  · intro h
    rw [← text_carried instant, h, text_carried]

end AttributeCodec.Instant
