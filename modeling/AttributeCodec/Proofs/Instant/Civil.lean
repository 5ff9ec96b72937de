import AttributeCodec.Instant.Calendar.Lemmas
import AttributeCodec.Proofs.Instant.LeapSecond

namespace AttributeCodec

attribute [local instance (high)] instPowNat

def Date.chars (date : Date) : List Char :=
  Instant.padded 4 date.year.toNat ++ '-' :: (Instant.padded 2 date.month ++ '-' :: Instant.padded 2 date.day)

/-- Nothing of no nanoseconds, or a point and digits: the nine of the nanoseconds and any further ones, or the
nine less some zeros at their end. -/
inductive Fraction (nanos : Nat) : List Char → Prop
  | none (h : nanos = 0) : Fraction nanos []
  | nine {further : List Char} (h : ∀ d ∈ further, d.isDigit = true) :
      Fraction nanos ('.' :: (Instant.padded 9 nanos ++ further))
  | short {digits : List Char} {zeros : Nat} (hne : digits ≠ [])
      (h : digits ++ List.replicate zeros '0' = Instant.padded 9 nanos) : Fraction nanos ('.' :: digits)

def hoursMinutes (minutes : Nat) : List Char :=
  Instant.padded 2 (minutes / 60) ++ ':' :: Instant.padded 2 (minutes % 60)

inductive Zone : Int → List Char → Prop
  | universal {mark : Char} (h : mark ∈ ['Z', 'z']) : Zone 0 [mark]
  | ahead {minutes : Nat} (h : minutes < 1440) : Zone minutes ('+' :: hoursMinutes minutes)
  | behind {sign : Char} (hsign : sign ∈ ['-', '−']) {minutes : Nat} (h : minutes < 1440) :
      Zone (-minutes) (sign :: hoursMinutes minutes)

theorem exists_zone {offset : Int} (h : -1440 < offset ∧ offset < 1440) : ∃ zone, Zone offset zone := by
  rcases Int.le_total 0 offset with hsign | hsign
  · obtain ⟨minutes, rfl⟩ := Int.eq_ofNat_of_zero_le hsign
    exact ⟨_, .ahead (by omega)⟩
  · obtain ⟨minutes, hminutes⟩ := Int.exists_eq_neg_ofNat hsign
    subst hminutes
    exact ⟨_, .behind (by decide : '-' ∈ _) (by omega)⟩

structure ClockTime where
  hour : Nat
  minute : Nat
  second : Nat
  nanos : Nat
  hour_lt : hour < 24
  minute_lt : minute < 60
  second_le : second ≤ 60
  nanos_lt : nanos < 1000000000

namespace ClockTime

variable (clock : ClockTime)

def secondOfDay : Nat := clock.hour * 3600 + clock.minute * 60 + min clock.second 59

def nanosOfSecond : Nat := if clock.second = 60 then clock.nanos + 1000000000 else clock.nanos

theorem ite_second :
    (if clock.second = 60 then (clock.hour * 3600 + clock.minute * 60 + 59, clock.nanos + 1000000000)
      else (clock.hour * 3600 + clock.minute * 60 + clock.second, clock.nanos)) =
    (clock.secondOfDay, clock.nanosOfSecond) := by
  have hsecond := clock.second_le
  simp only [secondOfDay, nanosOfSecond]
  split
  · next h => rw [h, Nat.min_eq_right (by decide)]
  · rw [Nat.min_eq_left (by omega)]

theorem secondOfDay_lt : clock.secondOfDay < 86400 := by
  have hhour := clock.hour_lt
  have hminute := clock.minute_lt
  simp only [secondOfDay]
  omega

theorem nanosOfSecond_lt : clock.nanosOfSecond < 2000000000 := by
  have hnanos := clock.nanos_lt
  simp only [nanosOfSecond]
  split <;> omega

theorem secondOfDay_mod (h : 1000000000 ≤ clock.nanosOfSecond) : clock.secondOfDay % 60 = 59 := by
  have hnanos := clock.nanos_lt
  simp only [nanosOfSecond] at h
  simp only [secondOfDay]
  split at h <;> omega

def chars : List Char :=
  Instant.padded 2 clock.hour ++ ':' :: (Instant.padded 2 clock.minute ++ ':' :: Instant.padded 2 clock.second)

end ClockTime

structure CivilTime where
  date : Date
  clock : ClockTime
  offset : Int
  date_exists : date.Exists
  year_bounds : 0 ≤ date.year ∧ date.year ≤ 9999
  offset_bounds : -1440 < offset ∧ offset < 1440

namespace CivilTime

variable (time : CivilTime)

def seconds : Int :=
  (time.date.dayNumber - Instant.epochDay) * 86400 + time.clock.secondOfDay - time.offset * 60

theorem seconds_mod (h : 1000000000 ≤ time.clock.nanosOfSecond) : time.seconds % 60 = 59 := by
  have hsecond := time.clock.secondOfDay_mod h
  simp only [seconds]
  omega

theorem first_le_seconds : -8334601228800 ≤ time.seconds := by
  have hlower := Date.daysBeforeYear_le time.date_exists
  have hyear := time.year_bounds
  have hoffset := time.offset_bounds
  simp only [daysBeforeYear] at hlower
  simp only [seconds, Instant.epochDay]
  omega

theorem seconds_le_last : time.seconds ≤ 8210266876799 := by
  have hupper := Date.lt_daysBeforeYear time.date_exists
  have hyear := time.year_bounds
  have hoffset := time.offset_bounds
  have hsecond := time.clock.secondOfDay_lt
  simp only [daysBeforeYear] at hupper
  simp only [seconds, Instant.epochDay]
  omega

def instant : Instant where
  seconds := time.seconds
  nanos := time.clock.nanosOfSecond
  nanos_lt := time.clock.nanosOfSecond_lt
  first_le := time.first_le_seconds
  le_last := time.seconds_le_last

theorem leapInPlace_instant : time.instant.LeapInPlace := time.seconds_mod

def chars (separator : Char) (fraction zone : List Char) : List Char :=
  time.date.chars ++ separator :: (time.clock.chars ++ (fraction ++ zone))

inductive Spelled : List Char → Prop
  | intro {separator : Char} {fraction zone : List Char} (hseparator : separator ∈ ['T', 't', ' '])
      (hfraction : Fraction time.clock.nanos fraction) (hzone : Zone time.offset zone) :
      Spelled (time.chars separator fraction zone)

end CivilTime

end AttributeCodec
