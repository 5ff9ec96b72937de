import AttributeCodec.Proofs.Binary64.Nearest

namespace AttributeCodec.Binary64

attribute [local instance (high)] instPowNat
attribute [local irreducible] unitExponent limitExponent

theorem mid_le_of_abs_sub_le {a b t : ℚ} (hab : a < b) (h : |b - t| ≤ |a - t|) : a + b ≤ 2 * t := by
  by_contra hlt
  exact not_lt_of_ge h (abs_sub_lt_of_lt_mid hab (lt_of_not_ge hlt) le_rfl)

theorem le_mid_of_abs_sub_le {a b t : ℚ} (hab : a < b) (h : |a - t| ≤ |b - t|) : 2 * t ≤ a + b := by
  have hneg : |-a - -t| ≤ |-b - -t| := by
    rwa [← neg_sub', ← neg_sub', abs_neg, abs_neg]
  have hmid := mid_le_of_abs_sub_le (neg_lt_neg hab) hneg
  linarith

theorem roundUnits_le_of_le {num num' den : Nat} (hden : 0 < den) (h : num ≤ num') :
    roundUnits num den ≤ roundUnits num' den := by
  by_contra hlt
  have hcross : (roundUnits num' den : ℚ) < roundUnits num den := by exact_mod_cast Nat.lt_of_not_le hlt
  -- Each quotient is no nearer to the other's result, so both lie in the middle between the two.
  have hlow := mid_le_of_abs_sub_le hcross (roundUnits_le_dist num hden (last_dvd_roundUnits hden))
  have hhigh := le_mid_of_abs_sub_le hcross (roundUnits_le_dist num' hden (last_dvd_roundUnits hden))
  have hdenpos : (0 : ℚ) < den := by exact_mod_cast hden
  have hquotient : (num' : ℚ) / den ≤ num / den := by linarith
  rw [div_le_div_iff_of_pos_right hdenpos, Nat.cast_le] at hquotient
  rw [Nat.le_antisymm h hquotient] at hlt
  exact hlt le_rfl

theorem roundUnits_mono {num den num' den' : Nat} (hden : 0 < den) (hden' : 0 < den')
    (h : num * den' ≤ num' * den) : roundUnits num den ≤ roundUnits num' den' :=
  calc roundUnits num den = roundUnits (num * den') (den * den') :=
        roundUnits_congr hden (Nat.mul_pos hden hden') (by ac_rfl)
    _ ≤ roundUnits (num' * den) (den * den') := roundUnits_le_of_le (Nat.mul_pos hden hden') h
    _ = roundUnits num' den' := roundUnits_congr (Nat.mul_pos hden hden') hden' (by ac_rfl)

theorem lt_two_mul_of_roundUnits {units num den : Nat} (hden : 0 < den) (hunits : units ≠ 0)
    (h : roundUnits num den = units) : num < 2 * (units * den) := by
  by_contra hle
  have hlead : 2 ^ (units.log2 + 1) * den ≤ num :=
    calc 2 ^ (units.log2 + 1) * den = 2 * (2 ^ units.log2 * den) := by rw [Nat.pow_succ', Nat.mul_assoc]
      _ ≤ 2 * (units * den) := Nat.mul_le_mul_left _ (Nat.mul_le_mul_right _ (Nat.log2_self_le hunits))
      _ ≤ num := Nat.le_of_not_lt hle
  have hreach := two_pow_le_roundUnits hden hlead
  rw [h] at hreach
  exact absurd Nat.lt_log2_self (Nat.not_lt.mpr hreach)

end AttributeCodec.Binary64
