import AttributeCodec.Proofs.Instant.Civil
import AttributeCodec.Proofs.Instant.Digits

namespace AttributeCodec.Instant

open Text (byte)

attribute [local instance (high)] instPowNat

theorem bytes_padded (width n : Nat) : Text.bytes (padded width n) = paddedBytes width n :=
  Text.bytes_of_isDigit (isDigit_padded width n)

theorem bytes_dash (chars : List Char) : Text.bytes ('-' :: chars) = 45 :: Text.bytes chars := rfl

theorem bytes_colon (chars : List Char) : Text.bytes (':' :: chars) = 58 :: Text.bytes chars := rfl

theorem bytes_point {digits : List Char} (h : ∀ c ∈ digits, c.isDigit = true) :
    Text.bytes ('.' :: digits) = 46 :: digits.map byte :=
  congrArg (46 :: ·) (Text.bytes_of_isDigit h)

theorem bytes_mark (mark : Char) (minutes : Nat) (rest : List UInt8) :
    Text.bytes (mark :: hoursMinutes minutes) ++ rest =
      Text.bytes [mark] ++ (paddedBytes 2 (minutes / 60) ++ 58 :: (paddedBytes 2 (minutes % 60) ++ rest)) := by
  rw [← List.singleton_append, Text.bytes_append, hoursMinutes, Text.bytes_append, bytes_colon, bytes_padded,
    bytes_padded, List.append_assoc, List.append_assoc, List.cons_append]

namespace Scan

variable {α β : Type} {bytes rest : List UInt8} {u : Unit}

theorem bind_eq_ok_iff {x : Scan α} {f : α → Scan β} {b : β} :
    (x >>= f) bytes = .ok (b, rest) ↔ ∃ a middle, x bytes = .ok (a, middle) ∧ f a middle = .ok (b, rest) := by
  change (x bytes >>= fun result => f result.1 result.2) = _ ↔ _
  cases x bytes with
  | error fault => simp [bind, Except.bind]
  | ok result =>
    obtain ⟨a, middle⟩ := result
    simp [bind, Except.bind]

theorem pure_eq_ok_iff {a b : α} : (pure a : Scan α) bytes = .ok (b, rest) ↔ a = b ∧ bytes = rest := by
  change (.ok (a, bytes) : Except TextFault (α × List UInt8)) = _ ↔ _
  simp

theorem oneOf_eq_ok_iff {choices : List UInt8} :
    oneOf choices bytes = .ok (u, rest) ↔ ∃ b ∈ choices, bytes = b :: rest := by
  cases bytes with
  | nil => simp [oneOf]
  | cons b bytes => by_cases h : b ∈ choices <;> simp [oneOf, h]

theorem require_eq_ok_iff {p : Prop} [Decidable p] {fault : TextFault} :
    require p fault bytes = .ok (u, rest) ↔ p ∧ bytes = rest := by
  by_cases h : p
  · simp [require, h, pure_eq_ok_iff]
  · simp [require, h, throw, throwThe, MonadExceptOf.throw, StateT.lift, bind, Except.bind]

theorem dash_eq_ok_iff : dash bytes = .ok (u, rest) ↔ bytes = 45 :: rest := by
  simp [dash, oneOf_eq_ok_iff]

theorem colon_eq_ok_iff : colon bytes = .ok (u, rest) ↔ bytes = 58 :: rest := by
  simp [colon, oneOf_eq_ok_iff]

theorem finished_eq_ok_iff : finished bytes = .ok (u, rest) ↔ bytes = [] ∧ rest = [] := by
  cases bytes <;> simp [finished, eq_comm]

theorem number_four_eq_ok_iff {n : Nat} :
    number 4 bytes = .ok (n, rest) ↔ n < 10000 ∧ bytes = paddedBytes 4 n ++ rest :=
  number_eq_ok_iff (by decide)

theorem number_two_eq_ok_iff {n : Nat} :
    number 2 bytes = .ok (n, rest) ↔ n < 100 ∧ bytes = paddedBytes 2 n ++ rest :=
  number_eq_ok_iff (by decide)

theorem date_eq_ok_iff {date : Date} :
    Scan.date bytes = .ok (date, rest) ↔
      date.Exists ∧ (0 ≤ date.year ∧ date.year ≤ 9999) ∧ bytes = Text.bytes date.chars ++ rest := by
  unfold Scan.date
  simp only [bind_eq_ok_iff, number_four_eq_ok_iff, number_two_eq_ok_iff, dash_eq_ok_iff, require_eq_ok_iff,
    pure_eq_ok_iff, Date.chars, Text.bytes_append, bytes_dash, bytes_padded, List.append_assoc, List.cons_append]
  constructor
  · rintro ⟨year, _, ⟨hyear, rfl⟩, _, _, rfl, month, _, ⟨-, rfl⟩, _, _, rfl, day, _, ⟨-, rfl⟩, _, _,
      ⟨hdate, rfl⟩, rfl, rfl⟩
    exact ⟨hdate, ⟨Int.natCast_nonneg year, by dsimp only; omega⟩, rfl⟩
  · rintro ⟨hdate, hyear, rfl⟩
    obtain ⟨hmonth, hday⟩ := Date.month_day_lt hdate
    obtain ⟨year, month, day⟩ := date
    obtain ⟨n, rfl : year = n⟩ := Int.eq_ofNat_of_zero_le hyear.1
    have hn : (n : Int) ≤ 9999 := hyear.2
    exact ⟨n, _, ⟨by omega, rfl⟩, (), _, rfl, month, _, ⟨hmonth, rfl⟩, (), _, rfl, day, _, ⟨hday, rfl⟩,
      (), _, ⟨hdate, rfl⟩, rfl, rfl⟩

def Stops (rest : List UInt8) : Prop := ∀ b ∈ rest.head?, isDigit b = false ∧ b ≠ 46

theorem nanosOfDigits_eq {digits : List Char} (h : ∀ c ∈ digits, c.isDigit = true) :
    nanosOfDigits (digits.map byte) = Nat.ofDigitChars 10 (digits.take 9) 0 * 10 ^ (9 - digits.length) := by
  have htake : ∀ c ∈ digits.take 9, c.isDigit = true := fun c hc => h c (List.mem_of_mem_take hc)
  rw [nanosOfDigits, ← List.map_take, ofDigits_map_byte htake, List.length_map]

theorem nanosOfDigits_of_fraction {nanos : Nat} (hnanos : nanos < 1000000000) {digits : List Char}
    (h : Fraction nanos ('.' :: digits)) :
    digits ≠ [] ∧ (∀ c ∈ digits, c.isDigit = true) ∧ nanosOfDigits (digits.map byte) = nanos := by
  have hlength : (padded 9 nanos).length = 9 := length_padded (by decide) hnanos
  have hdigits := isDigit_padded 9 nanos
  cases h with
  | @nine further hfurther =>
    have hall := List.forall_mem_append.mpr ⟨hdigits, hfurther⟩
    refine ⟨List.ne_nil_of_length_pos (by rw [List.length_append]; omega), hall, ?_⟩
    rw [nanosOfDigits_eq hall, List.take_left' hlength, ofDigitChars_padded, List.length_append, hlength]
    simp
  | @short digits zeros hne heq =>
    have hall : ∀ c ∈ digits, c.isDigit = true := fun c hc =>
      hdigits c (heq ▸ List.mem_append_left _ hc)
    have hsum : digits.length + zeros = 9 := by
      rw [← hlength, ← heq, List.length_append, List.length_replicate]
    have hvalue := ofDigitChars_padded 9 nanos
    rw [← heq, Nat.ofDigitChars_append, Nat.ofDigitChars_replicate_zero] at hvalue
    refine ⟨hne, hall, ?_⟩
    rw [nanosOfDigits_eq hall, List.take_of_length_le (by omega), ← hvalue, ← hsum, Nat.add_sub_cancel_left,
      Nat.mul_comm]

theorem fraction_of_nanosOfDigits {digits : List Char} (h : ∀ c ∈ digits, c.isDigit = true) (hne : digits ≠ []) :
    nanosOfDigits (digits.map byte) < 1000000000 ∧
      Fraction (nanosOfDigits (digits.map byte)) ('.' :: digits) := by
  rw [nanosOfDigits_eq h]
  by_cases hlength : 9 ≤ digits.length
  · have htake : ∀ c ∈ digits.take 9, c.isDigit = true := fun c hc => h c (List.mem_of_mem_take hc)
    have hnine : (digits.take 9).length = 9 := by
      rw [List.length_take, Nat.min_eq_left hlength]
    have hlt := ofDigitChars_lt htake
    have hpadded := padded_ofDigitChars htake (List.ne_nil_of_length_pos (by omega))
    rw [hnine] at hlt hpadded
    rw [Nat.sub_eq_zero_of_le hlength, Nat.pow_zero, Nat.mul_one]
    refine ⟨hlt, ?_⟩
    have hfurther : ∀ c ∈ digits.drop 9, c.isDigit = true := fun c hc => h c (List.mem_of_mem_drop hc)
    have hfraction : Fraction (Nat.ofDigitChars 10 (digits.take 9) 0) _ := .nine hfurther
    rwa [hpadded, List.take_append_drop] at hfraction
  · have hzeros : ∀ c ∈ digits ++ List.replicate (9 - digits.length) '0', c.isDigit = true := by
      refine List.forall_mem_append.mpr ⟨h, fun c hc => ?_⟩
      rw [List.eq_of_mem_replicate hc]
      rfl
    have hnine : (digits ++ List.replicate (9 - digits.length) '0').length = 9 := by
      rw [List.length_append, List.length_replicate]
      omega
    have hlt := ofDigitChars_lt hzeros
    have hpadded := padded_ofDigitChars hzeros (List.ne_nil_of_length_pos (by omega))
    rw [hnine, Nat.ofDigitChars_append, Nat.ofDigitChars_replicate_zero, Nat.mul_comm] at hlt hpadded
    rw [List.take_of_length_le (by omega)]
    exact ⟨hlt, .short hne hpadded.symm⟩

theorem fraction_digits {digits : List Char} (h : ∀ c ∈ digits, c.isDigit = true) (hne : digits ≠ [])
    (hstops : Stops rest) :
    Scan.fraction (46 :: (digits.map byte ++ rest)) = .ok (nanosOfDigits (digits.map byte), rest) := by
  have hdigits := isDigit_map_byte h
  have hrest : rest.takeWhile isDigit = [] ∧ rest.dropWhile isDigit = rest := by
    cases rest with
    | nil => exact ⟨rfl, rfl⟩
    | cons b rest =>
      have hb := (hstops b rfl).1
      exact ⟨List.takeWhile_cons_of_neg (by simp [hb]), List.dropWhile_cons_of_neg (by simp [hb])⟩
  unfold Scan.fraction
  simp only [List.takeWhile_append_of_pos hdigits, List.dropWhile_append_of_pos hdigits, hrest,
    List.append_nil]
  split
  · next hnil => exact absurd (List.map_eq_nil_iff.mp hnil) hne
  · rfl

theorem fraction_of_stops (hstops : Stops bytes) : Scan.fraction bytes = .ok (0, bytes) := by
  unfold Scan.fraction
  split
  · exact absurd rfl (hstops 46 rfl).2
  · rfl

theorem fraction_eq_ok_iff {nanos : Nat} (hstops : Stops rest) :
    Scan.fraction bytes = .ok (nanos, rest) ↔
      nanos < 1000000000 ∧ ∃ fraction, Fraction nanos fraction ∧ bytes = Text.bytes fraction ++ rest := by
  constructor
  · intro h
    unfold Scan.fraction at h
    split at h
    · next bytes =>
      split at h
      · cases h
      · next hne =>
        obtain ⟨rfl, rfl⟩ := Prod.mk.inj (Except.ok.inj h)
        have hall := List.all_eq_true.mp (List.all_takeWhile (p := isDigit) (l := bytes))
        obtain ⟨digits, hdigits, htake⟩ := exists_digits hall
        rw [htake, List.map_eq_nil_iff] at hne
        obtain ⟨hlt, hfraction⟩ := fraction_of_nanosOfDigits hdigits hne
        rw [htake]
        refine ⟨hlt, _, hfraction, ?_⟩
        rw [bytes_point hdigits, ← htake, List.cons_append, List.takeWhile_append_dropWhile]
    · obtain ⟨rfl, rfl⟩ := Prod.mk.inj (Except.ok.inj h)
      exact ⟨by decide, [], .none rfl, rfl⟩
  · rintro ⟨hnanos, fraction, hfraction, rfl⟩
    cases fraction with
    | nil =>
      cases hfraction with
      | none hzero => exact hzero ▸ fraction_of_stops hstops
    | cons point digits =>
      obtain rfl : point = '.' := by cases hfraction <;> rfl
      obtain ⟨hne, hdigits, hvalue⟩ := nanosOfDigits_of_fraction hnanos hfraction
      rw [bytes_point hdigits, List.cons_append, fraction_digits hdigits hne hstops, hvalue]

def signs (negative : Bool) : List Char := if negative then ['-', '−'] else ['+']

theorem sign_eq_ok_iff {negative : Bool} :
    Scan.sign bytes = .ok (negative, rest) ↔ ∃ mark ∈ signs negative, bytes = Text.bytes [mark] ++ rest := by
  constructor
  · intro h
    unfold Scan.sign at h
    split at h
    · cases h
    · cases h
      exact ⟨'+', by decide, rfl⟩
    · cases h
      exact ⟨'-', by decide, rfl⟩
    · cases h
      exact ⟨'−', by decide, rfl⟩
    · cases h
  · rintro ⟨mark, hmark, rfl⟩
    cases negative with
    | false =>
      obtain rfl : mark = '+' := by simpa [signs] using hmark
      rfl
    | true =>
      obtain rfl | rfl : mark = '-' ∨ mark = '−' := by simpa [signs] using hmark
      · rfl
      · rfl

theorem signedOffset_eq_ok_iff {ahead : Int} :
    signedOffset bytes = .ok (ahead, rest) ∧ (-1440 < ahead ∧ ahead < 1440) ↔
      ∃ negative, ∃ mark ∈ signs negative, ∃ minutes : Nat, minutes < 1440 ∧
        ahead = (if negative then -(minutes : Int) else minutes) ∧
        bytes = Text.bytes (mark :: hoursMinutes minutes) ++ rest := by
  unfold signedOffset
  simp only [bind_eq_ok_iff, sign_eq_ok_iff, number_two_eq_ok_iff, colon_eq_ok_iff, require_eq_ok_iff,
    pure_eq_ok_iff, bytes_mark]
  constructor
  · rintro ⟨⟨negative, _, ⟨mark, hmark, rfl⟩, hours, _, ⟨hhours, rfl⟩, _, _, rfl, minutes, _, ⟨-, rfl⟩, _, _,
      ⟨hminutes, rfl⟩, rfl, rfl⟩, hbounds⟩
    have hquotient : (hours * 60 + minutes) / 60 = hours := by omega
    have hremainder : (hours * 60 + minutes) % 60 = minutes := by omega
    refine ⟨negative, mark, hmark, hours * 60 + minutes, ?_, rfl, ?_⟩
    · split at hbounds <;> omega
    · rw [hquotient, hremainder]
  · rintro ⟨negative, mark, hmark, minutes, hminutes, rfl, rfl⟩
    have htotal : minutes / 60 * 60 + minutes % 60 = minutes := by omega
    refine ⟨⟨negative, _, ⟨mark, hmark, rfl⟩, minutes / 60, _, ⟨by omega, rfl⟩, (), _, rfl, minutes % 60, _,
      ⟨by omega, rfl⟩, (), _, ⟨by omega, rfl⟩, ?_, rfl⟩, ?_⟩
    · rw [htotal]
    · split <;> omega

theorem offset_of_sign {negative : Bool} {mark : Char} (hmark : mark ∈ signs negative) (others : List Char) :
    Scan.offset (Text.bytes (mark :: others) ++ rest) = signedOffset (Text.bytes (mark :: others) ++ rest) := by
  have hmarks : mark ∈ ['+', '-', '−'] := by cases negative <;> simp_all [signs]
  simp only [List.mem_cons, List.not_mem_nil, or_false] at hmarks
  rcases hmarks with rfl | rfl | rfl
  all_goals rfl

theorem zone_signed {negative : Bool} {mark : Char} (hmark : mark ∈ signs negative) {minutes : Nat}
    (h : minutes < 1440) :
    Zone (if negative then -(minutes : Int) else minutes) (mark :: hoursMinutes minutes) := by
  cases negative with
  | false =>
    obtain rfl : mark = '+' := by simpa [signs] using hmark
    exact .ahead h
  | true => exact .behind hmark h

theorem offset_eq_ok_iff {ahead : Int} :
    Scan.offset bytes = .ok (ahead, rest) ∧ (-1440 < ahead ∧ ahead < 1440) ↔
      ∃ zone, Zone ahead zone ∧ bytes = Text.bytes zone ++ rest := by
  constructor
  · rintro ⟨h, hbounds⟩
    unfold Scan.offset at h
    split at h
    · cases h
      exact ⟨['Z'], .universal (by decide), rfl⟩
    · cases h
      exact ⟨['z'], .universal (by decide), rfl⟩
    · obtain ⟨negative, mark, hmark, minutes, hminutes, rfl, hbytes⟩ :=
        signedOffset_eq_ok_iff.mp ⟨h, hbounds⟩
      exact ⟨_, zone_signed hmark hminutes, hbytes⟩
  · rintro ⟨zone, hzone, rfl⟩
    cases hzone with
    | universal hmark =>
      refine ⟨?_, by decide⟩
      obtain rfl | rfl : _ = 'Z' ∨ _ = 'z' := by simpa using hmark
      · rfl
      · rfl
    | ahead h =>
      have hsign : '+' ∈ signs false := by decide
      rw [offset_of_sign hsign]
      exact signedOffset_eq_ok_iff.mpr ⟨false, '+', by decide, _, h, rfl, rfl⟩
    | behind hsign h =>
      have hbehind : _ ∈ signs true := hsign
      rw [offset_of_sign hbehind]
      exact signedOffset_eq_ok_iff.mpr ⟨true, _, hsign, _, h, rfl, rfl⟩

theorem stops_of_zone {ahead : Int} {zone : List Char} (h : Zone ahead zone) (rest : List UInt8) :
    Stops (Text.bytes zone ++ rest) := by
  have hhead : ∃ mark ∈ ['Z', 'z', '+', '-', '−'], ∃ others, zone = mark :: others := by
    cases h with
    | universal hmark => exact ⟨_, List.mem_append_left ['+', '-', '−'] hmark, [], rfl⟩
    | ahead => exact ⟨'+', by decide, _, rfl⟩
    | behind hsign => exact ⟨_, List.mem_append_right ['Z', 'z', '+'] hsign, _, rfl⟩
  obtain ⟨mark, hmark, others, rfl⟩ := hhead
  simp only [List.mem_cons, List.not_mem_nil, or_false] at hmark
  rcases hmark with rfl | rfl | rfl | rfl | rfl
  all_goals
    intro b hb
    obtain rfl := Option.mem_some.mp hb
    decide

theorem time_eq_ok_iff {second nanos : Nat} (hstops : Stops rest) :
    Scan.time bytes = .ok ((second, nanos), rest) ↔
      ∃ clock : ClockTime, ∃ fraction, Fraction clock.nanos fraction ∧
        bytes = Text.bytes (clock.chars ++ fraction) ++ rest ∧
        second = clock.secondOfDay ∧ nanos = clock.nanosOfSecond := by
  unfold Scan.time
  simp only [bind_eq_ok_iff, number_two_eq_ok_iff, colon_eq_ok_iff, require_eq_ok_iff, pure_eq_ok_iff,
    ClockTime.chars, Text.bytes_append, bytes_colon, bytes_padded, List.append_assoc, List.cons_append]
  constructor
  · rintro ⟨hour, _, ⟨-, rfl⟩, _, _, rfl, minute, _, ⟨-, rfl⟩, _, _, rfl, shown, _, ⟨-, rfl⟩, places, _,
      hfraction, _, _, ⟨⟨hhour, hminute, hsecond⟩, rfl⟩, hclock, rfl⟩
    obtain ⟨hplaces, fraction, hspelled, rfl⟩ := (fraction_eq_ok_iff hstops).mp hfraction
    let clock : ClockTime := ⟨hour, minute, shown, places, hhour, hminute, hsecond, hplaces⟩
    obtain ⟨rfl, rfl⟩ := Prod.mk.inj (hclock.symm.trans clock.ite_second)
    exact ⟨clock, fraction, hspelled, rfl, rfl, rfl⟩
  · rintro ⟨clock, fraction, hfraction, rfl, rfl, rfl⟩
    have hhour := clock.hour_lt
    have hminute := clock.minute_lt
    have hsecond := clock.second_le
    have hplaces := (fraction_eq_ok_iff hstops).mpr ⟨clock.nanos_lt, fraction, hfraction, rfl⟩
    exact ⟨clock.hour, _, ⟨by omega, rfl⟩, (), _, rfl, clock.minute, _, ⟨by omega, rfl⟩, (), _, rfl,
      clock.second, _, ⟨by omega, rfl⟩, clock.nanos, _, hplaces, (), _, ⟨⟨hhour, hminute, hsecond⟩, rfl⟩,
      clock.ite_second, rfl⟩

theorem separator_eq_ok_iff :
    oneOf [84, 116, 32] bytes = .ok (u, rest) ↔
      ∃ separator ∈ ['T', 't', ' '], bytes = Text.bytes [separator] ++ rest := by
  rw [oneOf_eq_ok_iff]
  simp [Text.bytes_cons]
  rfl

theorem bytes_chars (time : CivilTime) (separator : Char) (fraction zone : List Char) :
    Text.bytes (time.chars separator fraction zone) =
      Text.bytes time.date.chars ++ (Text.bytes [separator] ++
        (Text.bytes (time.clock.chars ++ fraction) ++ (Text.bytes zone ++ []))) := by
  simp [CivilTime.chars, Text.bytes_cons separator]

theorem fields_eq_ok_iff {date : Date} {second nanos : Nat} {ahead : Int} :
    Scan.fields bytes = .ok ((date, second, nanos, ahead), rest) ↔
      rest = [] ∧ ∃ time : CivilTime, ∃ chars, time.Spelled chars ∧ bytes = Text.bytes chars ∧
        date = time.date ∧ second = time.clock.secondOfDay ∧ nanos = time.clock.nanosOfSecond ∧
          ahead = time.offset := by
  unfold Scan.fields
  simp only [bind_eq_ok_iff, date_eq_ok_iff, separator_eq_ok_iff, require_eq_ok_iff, pure_eq_ok_iff,
    finished_eq_ok_iff]
  constructor
  · rintro ⟨_, _, ⟨hdate, hyear, rfl⟩, _, _, ⟨separator, hseparator, rfl⟩, ⟨_, _⟩, _, htime, _, _, hoffset,
      _, _, ⟨rfl, rfl⟩, _, _, ⟨hahead, rfl⟩, hfields, rfl⟩
    cases hfields
    obtain ⟨zone, hzone, rfl⟩ := offset_eq_ok_iff.mp ⟨hoffset, hahead⟩
    have hstops := stops_of_zone hzone []
    obtain ⟨clock, fraction, hfraction, rfl, rfl, rfl⟩ := (time_eq_ok_iff hstops).mp htime
    let time : CivilTime := ⟨date, clock, ahead, hdate, hyear, hahead⟩
    exact ⟨rfl, time, _, .intro hseparator hfraction hzone, (bytes_chars time ..).symm, rfl, rfl, rfl, rfl⟩
  · rintro ⟨rfl, time, _, @⟨separator, fraction, zone, hseparator, hfraction, hzone⟩, rfl, rfl, rfl, rfl, rfl⟩
    have hstops := stops_of_zone hzone []
    have htime := (time_eq_ok_iff hstops).mpr ⟨time.clock, fraction, hfraction, rfl, rfl, rfl⟩
    have hoffset : Scan.offset (Text.bytes zone ++ []) = .ok (time.offset, []) ∧ _ :=
      offset_eq_ok_iff.mpr ⟨zone, hzone, rfl⟩
    exact ⟨time.date, _, ⟨time.date_exists, time.year_bounds, bytes_chars ..⟩, (), _,
      ⟨separator, hseparator, rfl⟩, _, _, htime, time.offset, _, hoffset.1, (), _, ⟨rfl, rfl⟩, (), _,
      ⟨time.offset_bounds, rfl⟩, rfl, rfl⟩

end Scan

theorem length_chars (time : CivilTime) (separator : Char) (fraction zone : List Char) :
    19 ≤ (time.chars separator fraction zone).length := by
  have hyear := le_length_padded 4 time.date.year.toNat
  have hmonth := le_length_padded 2 time.date.month
  have hday := le_length_padded 2 time.date.day
  have hhour := le_length_padded 2 time.clock.hour
  have hminute := le_length_padded 2 time.clock.minute
  have hsecond := le_length_padded 2 time.clock.second
  simp only [CivilTime.chars, Date.chars, ClockTime.chars, List.length_append, List.length_cons]
  omega

theorem ofFields?_civil (time : CivilTime) :
    ofFields? time.date time.clock.secondOfDay time.clock.nanosOfSecond time.offset = some time.instant :=
  dif_pos ⟨time.instant.nanos_lt, time.leapInPlace_instant, time.instant.first_le, time.instant.le_last⟩

theorem ofBytes_eq_ok_iff {bytes : List UInt8} {instant : Instant} :
    ofBytes bytes = .ok instant ↔
      ∃ time : CivilTime, ∃ chars, time.Spelled chars ∧ bytes = Text.bytes chars ∧ time.instant = instant := by
  constructor
  · intro h
    unfold ofBytes at h
    split at h
    · cases h
    · change (Scan.fields bytes >>= _) = _ at h
      cases hfields : Scan.fields bytes with
      | error fault =>
        rw [hfields] at h
        cases h
      | ok result =>
        obtain ⟨⟨date, second, nanos, ahead⟩, rest⟩ := result
        obtain ⟨-, time, chars, hchars, hbytes, rfl, rfl, rfl, rfl⟩ := Scan.fields_eq_ok_iff.mp hfields
        rw [hfields] at h
        simp only [bind, Except.bind, ofFields?_civil] at h
        exact ⟨time, chars, hchars, hbytes, Except.ok.inj h⟩
  · rintro ⟨time, chars, hchars, rfl, rfl⟩
    have hfields := Scan.fields_eq_ok_iff.mpr ⟨rfl, time, chars, hchars, rfl, rfl, rfl, rfl, rfl⟩
    have hlength : 19 ≤ (Text.bytes chars).length := by
      refine Nat.le_trans ?_ (Text.length_le_length_bytes chars)
      cases hchars
      apply length_chars
    rw [ofBytes, if_neg (by omega)]
    change (Scan.fields (Text.bytes chars) >>= _) = _
    rw [hfields]
    simp only [bind, Except.bind, ofFields?_civil]

theorem parse_eq_ok_iff {text : String} {instant : Instant} :
    parse text = .ok instant ↔ ∃ time : CivilTime, time.Spelled text.toList ∧ time.instant = instant := by
  rw [parse, Text.utf8_eq, ofBytes_eq_ok_iff]
  constructor
  · rintro ⟨time, chars, hchars, hbytes, hinstant⟩
    exact ⟨time, Text.bytes_injective hbytes ▸ hchars, hinstant⟩
  · rintro ⟨time, hchars, hinstant⟩
    exact ⟨time, _, hchars, rfl, hinstant⟩

end AttributeCodec.Instant
