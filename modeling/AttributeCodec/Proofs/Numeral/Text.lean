import AttributeCodec.Numeral

namespace AttributeCodec.Numeral

attribute [local instance (high)] instPowNat

def pointed : List Char → List Char
  | [] => []
  | places => '.' :: places

theorem isDigit_toDigits {n : Nat} : ∀ c ∈ Nat.toDigits 10 n, c.isDigit = true :=
  fun _ hc => Nat.isDigit_of_mem_toDigits (by decide) (by decide) hc

theorem takeWhile_digits {digits rest : List Char} (hdigits : ∀ c ∈ digits, c.isDigit = true)
    (hrest : ∀ c ∈ rest.head?, c.isDigit = false) :
    (digits ++ rest).takeWhile Char.isDigit = digits ∧ (digits ++ rest).dropWhile Char.isDigit = rest := by
  rw [List.takeWhile_append_of_pos hdigits, List.dropWhile_append_of_pos hdigits]
  cases rest with
  | nil => simp
  | cons c rest => simp [hrest c rfl]

theorem decimal?_digits {negative : Bool} {whole places : List Char} (hne : whole ≠ [])
    (hwhole : ∀ c ∈ whole, c.isDigit = true) (hplaces : ∀ c ∈ places, c.isDigit = true) :
    decimal? negative (whole ++ pointed places) =
      some (.decimal negative (ofDigits (whole ++ places)) (-places.length)) := by
  have hpoint : ∀ c ∈ (pointed places).head?, c.isDigit = false := by
    cases places with
    | nil => simp [pointed]
    | cons p places => simp [pointed]
  obtain ⟨htake, hdrop⟩ := takeWhile_digits hwhole hpoint
  have hfraction : fraction (pointed places) = (places, []) := by
    cases places with
    | nil => rfl
    | cons p places =>
      have hend : ∀ c ∈ ([] : List Char).head?, c.isDigit = false := by simp
      obtain ⟨hp, hd⟩ := takeWhile_digits hplaces hend
      rw [List.append_nil] at hp hd
      rw [pointed, fraction, hp, hd]
      simp
  unfold decimal?
  rw [htake, hdrop, hfraction]
  simp [hne, exponent?]

theorem toLower_of_isDigit {c : Char} (h : c.isDigit = true) : c.toLower = c := by
  simp only [Char.isDigit, Bool.and_eq_true, decide_eq_true_eq] at h
  unfold Char.toLower
  split
  · next hupper =>
    simp [UInt32.le_iff_toNat_le] at h hupper
    omega
  · rfl

theorem ofChars?_digit (negative : Bool) {c : Char} (rest : List Char) (hc : c.isDigit = true) :
    ofChars? ((if negative then ['-'] else []) ++ c :: rest) = decimal? negative (c :: rest) := by
  have hunsigned : unsigned ((if negative then ['-'] else []) ++ c :: rest) = (negative, c :: rest) := by
    cases negative with
    | true => rfl
    | false =>
      simp only [Bool.false_eq_true, if_false, List.nil_append]
      unfold unsigned
      split <;> simp_all
  have hlower := toLower_of_isDigit hc
  have hn : c ≠ 'n' := by rintro rfl; simp at hc
  have hi : c ≠ 'i' := by rintro rfl; simp at hc
  unfold ofChars?
  rw [hunsigned]
  simp [hlower, hn, hi]

theorem ofDigits_cons {d : Nat} (hd : d < 10) (digits : List Char) :
    ofDigits (Nat.digitChar d :: digits) = 10 ^ digits.length * d + ofDigits digits := by
  rw [ofDigits, Nat.ofDigitChars_cons_digitChar_of_lt_ten hd, Nat.mul_zero, Nat.zero_add,
    Nat.ofDigitChars_eq_ofDigitChars_zero, ofDigits]

theorem ofDigits_append (digits others : List Char) :
    ofDigits (digits ++ others) = 10 ^ others.length * ofDigits digits + ofDigits others := by
  rw [ofDigits, Nat.ofDigitChars_append, Nat.ofDigitChars_eq_ofDigitChars_zero, ofDigits, ofDigits]

theorem scale_div_add_mod (scale n one : Nat) :
    scale * (n / one) * one + n % one * scale = n * scale :=
  calc scale * (n / one) * one + n % one * scale = (one * (n / one) + n % one) * scale := by
        rw [Nat.add_mul]
        ac_rfl
    _ = n * scale := by rw [Nat.div_add_mod]

theorem digit_lt {one rest : Nat} (h : rest < one) : rest * 10 / one < 10 := by
  rw [Nat.div_lt_iff_lt_mul (by omega)]
  omega

theorem isDigit_places {one count rest : Nat} (h : rest < one) :
    ∀ c ∈ places one count rest, c.isDigit = true := by
  induction count generalizing rest with
  | zero => simp [places]
  | succ count ih =>
    rw [places]
    split
    · simp
    · rw [List.forall_mem_cons]
      exact ⟨by simpa using digit_lt h, ih (Nat.mod_lt _ (by omega))⟩

theorem dvd_rest {one count rest : Nat} (hdvd : one ∣ rest * 10 ^ (count + 1)) :
    one ∣ rest * 10 % one * 10 ^ count := by
  rw [Nat.pow_succ', ← Nat.mul_assoc, ← scale_div_add_mod, Nat.mul_comm _ one] at hdvd
  exact (Nat.dvd_add_right (Nat.dvd_mul_right ..)).mp hdvd

theorem ofDigits_places {one count rest : Nat} (h : rest < one) (hdvd : one ∣ rest * 10 ^ count) :
    ofDigits (places one count rest) * one = rest * 10 ^ (places one count rest).length := by
  induction count generalizing rest with
  | zero =>
    obtain rfl : rest = 0 := Nat.eq_zero_of_dvd_of_lt (by simpa using hdvd) h
    simp [places, ofDigits]
  | succ count ih =>
    rw [places]
    split
    · next hzero => simp [hzero, ofDigits]
    · have hrest := ih (Nat.mod_lt _ (by omega)) (dvd_rest hdvd)
      rw [ofDigits_cons (digit_lt h), List.length_cons, Nat.add_mul, hrest, Nat.pow_succ',
        scale_div_add_mod, Nat.mul_assoc]

def wholeDigits (steps : Nat) : List Char := Nat.toDigits 10 (steps / Binary64.stepsPerOne)

def placeDigits (steps : Nat) : List Char :=
  places Binary64.stepsPerOne Binary64.unitExponent (steps % Binary64.stepsPerOne)

theorem fixedPoint_eq (steps : Nat) :
    fixedPoint steps = wholeDigits steps ++ pointed (placeDigits steps) := by
  unfold fixedPoint
  rw [← placeDigits]
  cases placeDigits steps with
  | nil => simp [pointed, wholeDigits]
  | cons c rest => rfl

theorem stepsPerOne_pos : 0 < Binary64.stepsPerOne := Nat.pow_pos (Nat.succ_pos 9)

theorem ofDigits_fixedPoint (steps : Nat) :
    ofDigits (wholeDigits steps ++ placeDigits steps) * Binary64.stepsPerOne =
      steps * 10 ^ (placeDigits steps).length := by
  have hplaces : ofDigits (placeDigits steps) * Binary64.stepsPerOne =
      steps % Binary64.stepsPerOne * 10 ^ (placeDigits steps).length :=
    ofDigits_places (Nat.mod_lt _ stepsPerOne_pos) (Nat.dvd_mul_left ..)
  have hwhole : ofDigits (wholeDigits steps) = steps / Binary64.stepsPerOne := Nat.ofDigitChars_ten_toDigits
  rw [ofDigits_append, Nat.add_mul, hplaces, hwhole, scale_div_add_mod]

theorem ofChars?_digits (negative : Bool) {whole places : List Char} (hne : whole ≠ [])
    (hwhole : ∀ c ∈ whole, c.isDigit = true) (hplaces : ∀ c ∈ places, c.isDigit = true) :
    ofChars? ((if negative then ['-'] else []) ++ (whole ++ pointed places)) =
      some (.decimal negative (ofDigits (whole ++ places)) (-places.length)) := by
  obtain ⟨c, rest, rfl⟩ := List.exists_cons_of_ne_nil hne
  rw [List.cons_append, ofChars?_digit negative _ (hwhole c List.mem_cons_self), ← List.cons_append,
    decimal?_digits hne hwhole hplaces]

theorem ofChars?_ofFinite (x : Binary64.Finite) :
    ofChars? (ofFinite x) =
      some (.decimal x.negative
        (ofDigits (wholeDigits (Binary64.shortestSteps x.units) ++
          placeDigits (Binary64.shortestSteps x.units)))
        (-(placeDigits (Binary64.shortestSteps x.units)).length)) := by
  rw [ofFinite, fixedPoint_eq]
  exact ofChars?_digits x.negative Nat.toDigits_ne_nil isDigit_toDigits
    (isDigit_places (Nat.mod_lt _ stepsPerOne_pos))

theorem ofChars?_toDigits (negative : Bool) (n : Nat) :
    ofChars? ((if negative then ['-'] else []) ++ Nat.toDigits 10 n) = some (.decimal negative n 0) := by
  have hplaces : ∀ c ∈ ([] : List Char), c.isDigit = true := by simp
  have h := ofChars?_digits negative Nat.toDigits_ne_nil (isDigit_toDigits (n := n)) hplaces
  simpa [pointed, ofDigits, Nat.ofDigitChars_ten_toDigits] using h

end AttributeCodec.Numeral
