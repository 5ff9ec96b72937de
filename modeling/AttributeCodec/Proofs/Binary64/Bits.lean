import AttributeCodec.Binary64.Bits

namespace AttributeCodec.Binary64

attribute [local instance (high)] instPowNat

theorem fieldsOfUnits_unitsOfFields {exponent fraction : Nat} (hf : fraction < 2 ^ fractionBits) :
    fieldsOfUnits (unitsOfFields exponent fraction) = exponent * 2 ^ fractionBits + fraction := by
  cases exponent with
  | zero => simp [unitsOfFields, fieldsOfUnits, hf]
  | succ e =>
    have hpos := Nat.two_pow_pos e
    have hunits : unitsOfFields (e + 1) fraction = (2 ^ fractionBits + fraction) * 2 ^ e := rfl
    have hlow : 2 ^ (fractionBits + e) ≤ (2 ^ fractionBits + fraction) * 2 ^ e := by
      rw [Nat.pow_add]
      exact Nat.mul_le_mul_right _ (Nat.le_add_right ..)
    have hhigh : (2 ^ fractionBits + fraction) * 2 ^ e < 2 ^ (fractionBits + e + 1) := by
      rw [Nat.add_right_comm, Nat.pow_add, Nat.pow_succ, Nat.mul_two]
      exact Nat.mul_lt_mul_of_pos_right (Nat.add_lt_add_left hf _) hpos
    have hlog : ((2 ^ fractionBits + fraction) * 2 ^ e).log2 - fractionBits = e := by
      have hne : (2 ^ fractionBits + fraction) * 2 ^ e ≠ 0 := Nat.ne_of_gt (Nat.lt_of_lt_of_le (Nat.two_pow_pos _) hlow)
      rw [(Nat.log2_eq_iff hne).mpr ⟨hlow, hhigh⟩, Nat.add_sub_cancel_left]
    have hnormal : ¬(2 ^ fractionBits + fraction) * 2 ^ e < 2 ^ fractionBits := by
      apply Nat.not_lt.mpr
      exact Nat.le_trans (Nat.pow_le_pow_right Nat.two_pos (Nat.le_add_right ..)) hlow
    rw [hunits, fieldsOfUnits, if_neg hnormal, hlog]
    simp only [Nat.mul_div_cancel _ hpos, Nat.succ_mul, Nat.add_assoc]

theorem withSign_fields (bits : UInt64) :
    withSign (decide (2 ^ (fractionBits + exponentBits) ≤ bits.toNat))
      (bits.toNat / 2 ^ fractionBits % 2 ^ exponentBits * 2 ^ fractionBits + bits.toNat % 2 ^ fractionBits) = bits := by
  have hlt := bits.toNat_lt
  apply UInt64.toNat_inj.mp
  by_cases hsign : 2 ^ (fractionBits + exponentBits) ≤ bits.toNat
  · rw [decide_eq_true hsign, withSign, if_pos rfl, UInt64.toNat_ofNat']
    simp only [fractionBits, exponentBits] at *
    omega
  · rw [decide_eq_false hsign, withSign, if_neg Bool.false_ne_true, UInt64.toNat_ofNat']
    simp only [fractionBits, exponentBits] at *
    omega

theorem toBits_ofBits {bits : UInt64} (h : ofBits bits ≠ .nan) : toBits (ofBits bits) = bits := by
  have hfraction : bits.toNat % 2 ^ fractionBits < 2 ^ fractionBits := Nat.mod_lt _ (Nat.two_pow_pos _)
  simp only [ofBits] at h ⊢
  split
  · rw [toBits, fieldsOfUnits_unitsOfFields hfraction, withSign_fields]
  · next hexponent =>
    rw [dif_neg hexponent] at h
    split
    · next hzero =>
      have hlt : bits.toNat / 2 ^ fractionBits % 2 ^ exponentBits < 2 ^ exponentBits :=
        Nat.mod_lt _ (Nat.two_pow_pos _)
      have hspecial : bits.toNat / 2 ^ fractionBits % 2 ^ exponentBits = specialExponent := by
        simp only [specialExponent, exponentBits] at hexponent hlt ⊢
        omega
      have hfields := withSign_fields bits
      rwa [hspecial, hzero, Nat.add_zero] at hfields
    · next hnonzero => exact absurd (if_neg hnonzero) h

end AttributeCodec.Binary64
