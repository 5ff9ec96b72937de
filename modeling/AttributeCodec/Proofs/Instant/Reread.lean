import AttributeCodec.Proofs.Instant.Text

namespace AttributeCodec

attribute [local instance (high)] instPowNat

namespace Instant

namespace Scan

variable {α β : Type} {bytes : List UInt8}

theorem bind_of_error {x : Scan α} (f : α → Scan β) {fault : TextFault} (h : x bytes = .error fault) :
    (x >>= f) bytes = .error fault := by
  change (x bytes >>= fun result => f result.1 result.2) = _
  rw [h]
  rfl

theorem fields_of_sign {mark : UInt8} (hmark : isDigit mark = false) (hlength : 4 ≤ (mark :: bytes).length) :
    Scan.fields (mark :: bytes) = .error .invalid := by
  have hyear : number 4 (mark :: bytes) = .error .invalid := by
    rw [number, if_neg (by omega), if_neg (by simp [hmark])]
  exact bind_of_error _ (bind_of_error _ hyear)

end Scan

theorem ofBytes_of_sign {mark : UInt8} (hmark : Scan.isDigit mark = false) {bytes : List UInt8}
    (hlength : 19 ≤ (mark :: bytes).length) : ofBytes (mark :: bytes) = .error .invalid := by
  rw [ofBytes, if_neg (by omega)]
  change (Scan.fields (mark :: bytes) >>= _) = _
  rw [Scan.fields_of_sign hmark (by omega)]
  rfl

theorem length_chars_instant (instant : Instant) : 19 ≤ instant.chars.length := by
  have hmonth := le_length_padded 2 instant.date.month
  have hday := le_length_padded 2 instant.date.day
  have hnanos := le_length_padded 9 instant.shownNanos
  simp only [chars_eq, ClockTime.chars, List.length_append, List.length_cons]
  omega

theorem exists_sign {instant : Instant} (hyear : ¬(0 ≤ instant.date.year ∧ instant.date.year ≤ 9999)) :
    ∃ rest, instant.chars = '-' :: rest ∨ instant.chars = '+' :: rest := by
  rw [chars_eq, yearText, if_neg hyear]
  by_cases hnegative : instant.date.year < 0
  · rw [if_pos hnegative]
    exact ⟨_, .inl rfl⟩
  · rw [if_neg hnegative]
    exact ⟨_, .inr rfl⟩

theorem read_text_of_signed {instant : Instant} (hyear : ¬(0 ≤ instant.date.year ∧ instant.date.year ≤ 9999)) :
    read instant.text = .error (.invalidTimestamp instant.text "input contains invalid characters") := by
  have hlength := Nat.le_trans instant.length_chars_instant (Text.length_le_length_bytes _)
  have hparse : parse instant.text = .error .invalid := by
    rw [parse, text, Text.utf8_eq, String.toList_ofList]
    obtain ⟨rest, hsign | hsign⟩ := exists_sign hyear
    · have hdash : Scan.isDigit 45 = false := by decide
      rw [hsign] at hlength ⊢
      exact ofBytes_of_sign hdash hlength
    · have hplus : Scan.isDigit 43 = false := by decide
      rw [hsign] at hlength ⊢
      exact ofBytes_of_sign hplus hlength
  rw [read, hparse]
  rfl

end Instant

namespace CivilTime

variable (time : CivilTime)

def LeavesRange : Prop :=
  (time.date.year = 0 ∧ time.instant.date.year = -1) ∨ (time.date.year = 9999 ∧ time.instant.date.year = 10000)

instance : Decidable time.LeavesRange := inferInstanceAs (Decidable (_ ∨ _))

theorem year_instant :
    time.date.year - 1 ≤ time.instant.date.year ∧ time.instant.date.year ≤ time.date.year + 1 := by
  have hlower := Date.daysBeforeYear_le time.date_exists
  have hupper := Date.lt_daysBeforeYear time.date_exists
  have hsecond := time.clock.secondOfDay_lt
  have hoffset := time.offset_bounds
  have hbefore := daysBeforeYear_lt (show time.date.year - 1 < time.date.year by omega)
  have hafter := daysBeforeYear_lt (show time.date.year + 1 < time.date.year + 2 by omega)
  have hday : time.date.dayNumber - 1 ≤ time.seconds / 86400 + Instant.epochDay ∧
      time.seconds / 86400 + Instant.epochDay ≤ time.date.dayNumber + 1 := by
    simp only [seconds]
    omega
  have hyear : time.instant.date.year = yearOfDay (time.seconds / 86400 + Instant.epochDay) := rfl
  rw [hyear]
  generalize time.seconds / 86400 + Instant.epochDay = day at hday
  have hlate : ¬time.date.year + 2 ≤ yearOfDay day := mt le_yearOfDay_iff.mp (by omega)
  exact ⟨le_yearOfDay_iff.mpr (by omega), by omega⟩

theorem leavesRange_iff : time.LeavesRange ↔ ¬(0 ≤ time.instant.date.year ∧ time.instant.date.year ≤ 9999) := by
  have hyear := time.year_bounds
  have hinstant := time.year_instant
  rw [LeavesRange]
  omega

theorem read_text_instant :
    Instant.read time.instant.text =
      if time.LeavesRange then .error (.invalidTimestamp time.instant.text "input contains invalid characters")
      else .ok time.instant := by
  by_cases h : time.LeavesRange
  · rw [if_pos h, Instant.read_text_of_signed (time.leavesRange_iff.mp h)]
  · rw [if_neg h, Instant.read_text (Decidable.not_not.mp (mt time.leavesRange_iff.mpr h)),
      Instant.carried_of_leapInPlace time.leapInPlace_instant]

end CivilTime

end AttributeCodec
