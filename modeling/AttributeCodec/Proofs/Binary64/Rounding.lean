import AttributeCodec.Binary64.Decimal

namespace AttributeCodec.Binary64

attribute [local instance (high)] instPowNat

theorem roundDiv_mul_left {k : Nat} (hk : 0 < k) (num den : Nat) :
    roundDiv (k * num) (k * den) = roundDiv num den := by
  have hlt (a b : Nat) : 2 * (k * a) < k * b ↔ 2 * a < b := by
    rw [Nat.mul_left_comm]
    exact Nat.mul_lt_mul_left hk
  have hgt (a b : Nat) : k * b < 2 * (k * a) ↔ b < 2 * a := by
    rw [Nat.mul_left_comm 2 k]
    exact Nat.mul_lt_mul_left hk
  simp only [roundDiv, Nat.mul_div_mul_left _ _ hk, Nat.mul_mod_mul_left, hlt, hgt]

theorem roundUnits_mul_left {k : Nat} (hk : 0 < k) (num den : Nat) :
    roundUnits (k * num) (k * den) = roundUnits num den := by
  have hlast : lastBit (k * num) (k * den) = lastBit num den := by
    simp only [lastBit, Nat.mul_div_mul_left _ _ hk]
  simp only [roundUnits, hlast, Nat.mul_assoc k den, roundDiv_mul_left hk]

theorem roundUnits_congr {num den num' den' : Nat} (hden : 0 < den) (hden' : 0 < den')
    (h : num * den' = num' * den) : roundUnits num den = roundUnits num' den' :=
  calc roundUnits num den = roundUnits (den' * num) (den' * den) := (roundUnits_mul_left hden' ..).symm
    _ = roundUnits (den * num') (den * den') := by
      rw [Nat.mul_comm den' num, h, Nat.mul_comm num' den, Nat.mul_comm den' den]
    _ = roundUnits num' den' := roundUnits_mul_left hden ..

theorem round_congr {negative : Bool} {num den num' den' : Nat} (hden : 0 < den) (hden' : 0 < den')
    (h : num * den' = num' * den) : round negative num den hden = round negative num' den' hden' := by
  simp only [round, roundUnits_congr hden hden' h]

theorem roundDiv_mul_right {m den : Nat} (hden : 0 < den) : roundDiv (m * den) den = m := by
  simp [roundDiv, Nat.mul_div_cancel m hden, hden]

theorem roundUnits_of_representable {units : Nat} (h : Representable units) :
    roundUnits units 1 = units := by
  have hlast : lastBit units 1 = units.log2 + 1 - precision := by rw [lastBit, Nat.div_one]
  obtain ⟨m, hm⟩ := h.1
  rw [roundUnits, hlast, Nat.one_mul]
  calc roundDiv units (2 ^ (units.log2 + 1 - precision)) * 2 ^ (units.log2 + 1 - precision)
      = roundDiv (m * 2 ^ (units.log2 + 1 - precision)) (2 ^ (units.log2 + 1 - precision)) *
          2 ^ (units.log2 + 1 - precision) := by rw [Nat.mul_comm m, ← hm]
    _ = m * 2 ^ (units.log2 + 1 - precision) := by rw [roundDiv_mul_right (Nat.two_pow_pos _)]
    _ = units := by rw [Nat.mul_comm m, ← hm]

theorem roundUnits_mul_of_representable {units den : Nat} (h : Representable units) (hden : 0 < den) :
    roundUnits (units * den) den = units := by
  rw [roundUnits_congr hden Nat.one_pos (Nat.mul_one _), roundUnits_of_representable h]

theorem round_eq_finite {negative : Bool} {num den units : Nat} {hden : 0 < den}
    (h : roundUnits num den = units) (hrep : Representable units) :
    round negative num den hden = .finite ⟨negative, units, hrep⟩ := by
  subst h
  exact dif_pos hrep.2

theorem units_of_round {negative : Bool} {num den : Nat} {hden : 0 < den} {x : Finite}
    (h : round negative num den hden = .finite x) : roundUnits num den = x.units := by
  rw [round] at h
  split at h
  · cases h
    rfl
  · cases h

theorem lastBit_of_lt {num den : Nat} (h : num < den) : lastBit num den = 0 := by
  rw [lastBit, Nat.div_eq_of_lt h]
  rfl

theorem roundUnits_eq_zero {num den : Nat} (h : 2 * num < den) : roundUnits num den = 0 := by
  have hlt : num < den := by omega
  rw [roundUnits, lastBit_of_lt hlt, Nat.pow_zero, Nat.mul_one, Nat.mul_one, roundDiv,
    Nat.mod_eq_of_lt hlt, if_pos h, Nat.div_eq_of_lt hlt]

theorem div_le_roundDiv (num den : Nat) : num / den ≤ roundDiv num den := by
  simp only [roundDiv]
  split
  · exact Nat.le_refl _
  · split <;> omega

theorem two_pow_le_roundUnits {num den e : Nat} (hden : 0 < den) (h : 2 ^ e * den ≤ num) :
    2 ^ e ≤ roundUnits num den := by
  have hq : 2 ^ e ≤ num / den := (Nat.le_div_iff_mul_le hden).mpr h
  have hq0 : num / den ≠ 0 := by
    have := Nat.two_pow_pos e
    omega
  have he : e ≤ (num / den).log2 := (Nat.le_log2 hq0).mpr hq
  -- The leading bits of the quotient hold its highest power of two.
  have hlast : lastBit num den ≤ (num / den).log2 := by simp only [lastBit, precision]; omega
  obtain ⟨m, hm⟩ := Nat.pow_dvd_pow 2 hlast
  have hlead : m ≤ roundDiv num (den * 2 ^ lastBit num den) := by
    refine Nat.le_trans ?_ (div_le_roundDiv _ _)
    rw [← Nat.div_div_eq_div_mul, Nat.le_div_iff_mul_le (Nat.two_pow_pos _), Nat.mul_comm, ← hm]
    exact Nat.log2_self_le hq0
  calc 2 ^ e ≤ 2 ^ (num / den).log2 := Nat.pow_le_pow_right Nat.two_pos he
    _ = m * 2 ^ lastBit num den := by rw [hm, Nat.mul_comm]
    _ ≤ roundUnits num den := Nat.mul_le_mul_right _ hlead

theorem round_eq_infinite {negative : Bool} {num den : Nat} {hden : 0 < den}
    (h : unitsLimit * den ≤ num) : round negative num den hden = .infinite negative :=
  dif_neg (Nat.not_lt.mpr (two_pow_le_roundUnits hden h))

theorem roundUnits_le_two_pow {num den e : Nat} (hden : 0 < den) (hnum : num < 2 ^ e * den)
    (he : precision ≤ e) : roundUnits num den ≤ 2 ^ e := by
  have hq : num / den < 2 ^ e := (Nat.div_lt_iff_lt_mul hden).mpr hnum
  have hlog : (num / den).log2 < e := by
    by_cases hq0 : num / den = 0
    · rw [hq0, Nat.log2_zero]
      exact Nat.lt_of_lt_of_le (by decide) he
    · exact (Nat.log2_lt hq0).mpr hq
  calc roundUnits num den ≤ 2 ^ precision * 2 ^ lastBit num den :=
        Nat.mul_le_mul_right _ (roundDiv_lastBit_le hden)
    _ = 2 ^ (precision + lastBit num den) := (Nat.pow_add ..).symm
    _ ≤ 2 ^ e := Nat.pow_le_pow_right Nat.two_pos (by simp only [lastBit]; omega)

theorem round_eq_finite_of_lt (negative : Bool) {num den e : Nat} (hden : 0 < den)
    (hnum : num < 2 ^ e * den) (hprecision : precision ≤ e) (he : e < limitExponent) :
    ∃ x : Finite, round negative num den hden = .finite x := by
  have hlt : roundUnits num den < unitsLimit :=
    Nat.lt_of_le_of_lt (roundUnits_le_two_pow hden hnum hprecision)
      (Nat.pow_lt_pow_right Nat.one_lt_two he)
  exact ⟨_, dif_pos hlt⟩

theorem unitsLimit_le_ten_pow {e : Nat} (h : 310 ≤ e) : unitsLimit ≤ 10 ^ e * unitsPerOne := by
  induction h with
  | refl => decide +kernel
  | step _ ih =>
    rw [Nat.pow_succ]
    exact Nat.le_trans ih (Nat.mul_le_mul_right _ (Nat.le_mul_of_pos_right _ (by decide)))

theorem unitsLimit_le_of_exponent {digits : Nat} {exponent : Int} (hdigits : digits ≠ 0)
    (h : 310 ≤ exponent) :
    unitsLimit * 10 ^ (-exponent).toNat ≤ digits * 10 ^ exponent.toNat * unitsPerOne := by
  rw [show (-exponent).toNat = 0 by omega, Nat.pow_zero, Nat.mul_one, Nat.mul_assoc]
  exact Nat.le_trans (unitsLimit_le_ten_pow (by omega))
    (Nat.le_mul_of_pos_left _ (Nat.pos_of_ne_zero hdigits))

theorem two_mul_lt_of_exponent {digits : Nat} {exponent : Int}
    (h : digits.log2 + 1076 ≤ 3 * -exponent) :
    2 * (digits * 10 ^ exponent.toNat * unitsPerOne) < 10 ^ (-exponent).toNat := by
  rw [show exponent.toNat = 0 by omega, Nat.pow_zero, Nat.mul_one]
  calc 2 * (digits * unitsPerOne) = digits * 2 ^ (1 + unitExponent) := by
        rw [Nat.pow_add, Nat.pow_one, Nat.mul_left_comm, unitsPerOne]
    _ < 2 ^ (digits.log2 + 1) * 2 ^ (1 + unitExponent) :=
      Nat.mul_lt_mul_of_pos_right Nat.lt_log2_self (Nat.two_pow_pos _)
    _ ≤ 2 ^ (3 * (-exponent).toNat) := by
      rw [← Nat.pow_add]
      exact Nat.pow_le_pow_right Nat.two_pos (by rw [unitExponent]; omega)
    _ = 8 ^ (-exponent).toNat := Nat.pow_mul 2 3 _
    _ ≤ 10 ^ (-exponent).toNat := Nat.pow_le_pow_left (by decide) _

theorem ofDecimal_eq_round (negative : Bool) (digits : Nat) (exponent : Int) :
    ofDecimal negative digits exponent =
      round negative (digits * 10 ^ exponent.toNat * unitsPerOne) (10 ^ (-exponent).toNat)
        (Nat.pow_pos (Nat.succ_pos 9)) := by
  have hpos : 0 < 10 ^ (-exponent).toNat := Nat.pow_pos (Nat.succ_pos 9)
  unfold ofDecimal
  split
  · next hdigits =>
    rw [hdigits]
    exact (round_eq_finite (roundUnits_eq_zero (by omega)) representable_zero).symm
  · next hdigits =>
    split
    · next hlarge => exact (round_eq_infinite (unitsLimit_le_of_exponent hdigits hlarge)).symm
    · split
      · next hsmall =>
        exact (round_eq_finite (roundUnits_eq_zero (two_mul_lt_of_exponent hsmall)) representable_zero).symm
      · rfl

end AttributeCodec.Binary64
