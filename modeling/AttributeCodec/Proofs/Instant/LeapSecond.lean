import AttributeCodec.Instant.Text

namespace AttributeCodec.Instant

variable {instant : Instant}

def LeapInPlace (instant : Instant) : Prop := 1000000000 ≤ instant.nanos → instant.seconds % 60 = 59

instance : Decidable instant.LeapInPlace := inferInstanceAs (Decidable (_ → _))

theorem not_leapInPlace_iff : ¬instant.LeapInPlace ↔ 1000000000 ≤ instant.nanos ∧ instant.seconds % 60 ≠ 59 :=
  Classical.not_imp

-- The text shows a leap second as one more than the second before it, which is the next second unless the minute ends.
def carried (instant : Instant) : Instant where
  seconds := if instant.LeapInPlace then instant.seconds else instant.seconds + 1
  nanos := if instant.LeapInPlace then instant.nanos else instant.nanos - 1000000000
  nanos_lt := by
    have hlt := instant.nanos_lt
    split <;> omega
  first_le := by
    have hfirst := instant.first_le
    split <;> omega
  le_last := by
    have hlast := instant.le_last
    split
    · exact hlast
    · next h =>
      obtain ⟨-, hsecond⟩ := not_leapInPlace_iff.mp h
      omega

theorem carried_of_leapInPlace (h : instant.LeapInPlace) : instant.carried = instant := by
  simp only [carried, if_pos h]

theorem seconds_carried (h : ¬instant.LeapInPlace) : instant.carried.seconds = instant.seconds + 1 := if_neg h

theorem nanos_carried (h : ¬instant.LeapInPlace) : instant.carried.nanos = instant.nanos - 1000000000 := if_neg h

theorem leapInPlace_carried (instant : Instant) : instant.carried.LeapInPlace := by
  by_cases h : instant.LeapInPlace
  · rwa [carried_of_leapInPlace h]
  · have hlt := instant.nanos_lt
    rw [LeapInPlace, nanos_carried h]
    omega

theorem carried_eq_self_iff : instant.carried = instant ↔ instant.LeapInPlace :=
  ⟨fun h => h ▸ instant.leapInPlace_carried, carried_of_leapInPlace⟩

end AttributeCodec.Instant
