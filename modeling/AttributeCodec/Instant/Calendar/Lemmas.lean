import AttributeCodec.Instant.Calendar

namespace AttributeCodec

theorem yearOfDay_le (day : Int) : daysBeforeYear (yearOfDay day) ≤ day := by
  simp only [yearOfDay]
  split
  · simp only [daysBeforeYear] at *
    omega
  · split <;> omega

theorem lt_yearOfDay (day : Int) : day < daysBeforeYear (yearOfDay day + 1) := by
  simp only [yearOfDay]
  split
  · simpa using by assumption
  · split
    · simp only [daysBeforeYear] at *
      omega
    · omega

theorem foldl_add_eq (lengths : List Nat) (start : Nat) :
    lengths.foldl (· + ·) start = start + lengths.foldl (· + ·) 0 := by
  induction lengths generalizing start with
  | nil => rfl
  | cons length lengths ih =>
    simp only [List.foldl_cons]
    rw [ih (start + length), ih (0 + length)]
    omega

theorem foldl_add_cons (length : Nat) (lengths : List Nat) :
    (length :: lengths).foldl (· + ·) 0 = length + lengths.foldl (· + ·) 0 := by
  rw [List.foldl_cons, foldl_add_eq, Nat.zero_add]

theorem foldl_add_monthLengths (year : Int) :
    (((monthLengths year).foldl (· + ·) 0 : Nat) : Int) =
      daysBeforeYear (year + 1) - daysBeforeYear year := by
  simp only [monthLengths, foldl_add_cons, List.foldl_nil, isLeapYear, daysBeforeYear,
    decide_eq_true_eq]
  split <;> omega

namespace Date

theorem inMonths_of_lt (lengths : List Nat) (rest : Nat) (h : rest < lengths.foldl (· + ·) 0) :
    1 ≤ (inMonths lengths rest).1 ∧ 1 ≤ (inMonths lengths rest).2 ∧
      (inMonths lengths rest).2 ≤ lengths[(inMonths lengths rest).1 - 1]?.getD 0 ∧
      (lengths.take ((inMonths lengths rest).1 - 1)).foldl (· + ·) 0 + (inMonths lengths rest).2 =
        rest + 1 := by
  induction lengths generalizing rest with
  | nil => simp at h
  | cons length lengths ih =>
    rw [foldl_add_cons] at h
    unfold inMonths
    split
    · simp
      omega
    · obtain ⟨hmonth, hday, hle, hsum⟩ := ih (rest - length) (by omega)
      obtain ⟨month, hm⟩ : ∃ month, (inMonths lengths (rest - length)).1 = month + 1 :=
        ⟨_, (Nat.sub_add_cancel hmonth).symm⟩
      simp only [hm, Nat.add_sub_cancel, List.getElem?_cons_succ, List.take_succ_cons,
        foldl_add_cons] at *
      omega

theorem exists_ofDayNumber (day : Int) : (ofDayNumber day).Exists := by
  have hle := yearOfDay_le day
  have hlt := lt_yearOfDay day
  have hsum := foldl_add_monthLengths (yearOfDay day)
  obtain ⟨hmonth, hday, hlast, -⟩ := inMonths_of_lt (monthLengths (yearOfDay day))
    (day - daysBeforeYear (yearOfDay day)).toNat (by omega)
  exact ⟨hmonth, hday, hlast⟩

theorem dayNumber_ofDayNumber (day : Int) : (ofDayNumber day).dayNumber = day := by
  have hle := yearOfDay_le day
  have hlt := lt_yearOfDay day
  have hsum := foldl_add_monthLengths (yearOfDay day)
  obtain ⟨-, -, -, heq⟩ := inMonths_of_lt (monthLengths (yearOfDay day))
    (day - daysBeforeYear (yearOfDay day)).toNat (by omega)
  simp only [dayNumber, daysBeforeMonth, ofDayNumber]
  omega

end Date

theorem daysBeforeYear_lt {year later : Int} (h : year < later) :
    daysBeforeYear year < daysBeforeYear later := by
  simp only [daysBeforeYear]
  omega

theorem le_yearOfDay_iff {year day : Int} : year ≤ yearOfDay day ↔ daysBeforeYear year ≤ day := by
  have hle := yearOfDay_le day
  have hlt := lt_yearOfDay day
  constructor
  · intro h
    rcases Int.lt_or_eq_of_le h with h | rfl
    · have := daysBeforeYear_lt h
      omega
    · exact hle
  · intro h
    refine Int.not_lt.mp fun hgt => ?_
    rcases Int.lt_or_eq_of_le (Int.add_one_le_of_lt hgt) with hgt | rfl
    · have := daysBeforeYear_lt hgt
      omega
    · omega

theorem yearOfDay_eq {day year : Int} (hle : daysBeforeYear year ≤ day)
    (hlt : day < daysBeforeYear (year + 1)) : yearOfDay day = year := by
  have hlower := le_yearOfDay_iff.mpr hle
  have hupper : ¬year + 1 ≤ yearOfDay day := mt le_yearOfDay_iff.mp (by omega)
  omega

namespace Date

theorem foldl_take_add_le (lengths : List Nat) (month : Nat) :
    (lengths.take month).foldl (· + ·) 0 + lengths[month]?.getD 0 ≤ lengths.foldl (· + ·) 0 := by
  induction lengths generalizing month with
  | nil => simp
  | cons length lengths ih =>
    rw [foldl_add_cons]
    cases month with
    | zero => simp
    | succ month =>
      rw [List.take_succ_cons, foldl_add_cons, List.getElem?_cons_succ]
      have := ih month
      omega

theorem daysBeforeYear_le {date : Date} (h : date.Exists) : daysBeforeYear date.year ≤ date.dayNumber := by
  obtain ⟨-, hday, -⟩ := h
  simp only [dayNumber]
  omega

theorem lt_daysBeforeYear {date : Date} (h : date.Exists) : date.dayNumber < daysBeforeYear (date.year + 1) := by
  obtain ⟨-, -, hlast⟩ := h
  have hsum := foldl_add_monthLengths date.year
  have hle := foldl_take_add_le (monthLengths date.year) (date.month - 1)
  simp only [dayNumber, daysBeforeMonth]
  omega

theorem yearOfDay_dayNumber {date : Date} (h : date.Exists) : yearOfDay date.dayNumber = date.year :=
  yearOfDay_eq (daysBeforeYear_le h) (lt_daysBeforeYear h)

theorem month_day_lt {date : Date} (h : date.Exists) : date.month < 100 ∧ date.day < 100 := by
  obtain ⟨hmonth, hday, hlast⟩ := h
  have hlength : (monthLengths date.year).length = 12 := rfl
  cases hget : (monthLengths date.year)[date.month - 1]? with
  | none =>
    rw [hget, Option.getD_none] at hlast
    omega
  | some length =>
    have hmem : length ∈ monthLengths date.year := List.mem_of_getElem? hget
    have hle : length ≤ 31 := by
      simp only [monthLengths, List.mem_cons, List.not_mem_nil, or_false] at hmem
      split at hmem <;> omega
    have hlt := (List.getElem?_eq_some_iff.mp hget).1
    rw [hget, Option.getD_some] at hlast
    omega

theorem foldl_take_add_le_take (lengths : List Nat) {month later : Nat} (h : month < later) :
    (lengths.take month).foldl (· + ·) 0 + lengths[month]?.getD 0 ≤ (lengths.take later).foldl (· + ·) 0 := by
  have hle := foldl_take_add_le (lengths.take later) month
  rwa [List.take_take, Nat.min_eq_left (Nat.le_of_lt h), List.getElem?_take_of_lt h] at hle

variable {date later : Date}

theorem year_le (h : date.Exists) (hlater : later.Exists) (hle : date.dayNumber ≤ later.dayNumber) :
    date.year ≤ later.year := by
  rw [← yearOfDay_dayNumber hlater]
  exact le_yearOfDay_iff.mpr (Int.le_trans (daysBeforeYear_le h) hle)

theorem month_le (h : date.Exists) (hlater : later.Exists) (hle : date.dayNumber ≤ later.dayNumber)
    (hyear : date.year = later.year) : date.month ≤ later.month := by
  obtain ⟨hmonth, hday, -⟩ := h
  obtain ⟨hlaterMonth, -, hlast⟩ := hlater
  refine Nat.not_lt.mp fun hlt => ?_
  have hsum := foldl_take_add_le_take (monthLengths later.year) (show later.month - 1 < date.month - 1 by omega)
  simp only [dayNumber, daysBeforeMonth, hyear] at hle
  omega

theorem dayNumber_sub (hyear : date.year = later.year) (hmonth : date.month = later.month) :
    later.dayNumber - date.dayNumber = (later.day : Int) - date.day := by
  simp only [dayNumber, daysBeforeMonth, hyear, hmonth]
  omega

end Date

end AttributeCodec
