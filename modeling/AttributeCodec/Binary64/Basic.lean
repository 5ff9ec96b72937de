/-! Floating-point numbers by their values: a finite one is a whole number of units of `2 ^ -1074` with a sign,
and all NaNs are one value. -/

namespace AttributeCodec

attribute [local instance (high)] instPowNat

namespace Binary64

def unitExponent : Nat := 1074

def unitsPerOne : Nat := 2 ^ unitExponent

def limitExponent : Nat := 2098

def unitsLimit : Nat := 2 ^ limitExponent

def precision : Nat := 53

def Representable (units : Nat) : Prop :=
  2 ^ (units.log2 + 1 - precision) ∣ units ∧ units < unitsLimit

instance (units : Nat) : Decidable (Representable units) := inferInstanceAs (Decidable (_ ∧ _))

structure Finite where
  negative : Bool
  units : Nat
  representable : Representable units
deriving DecidableEq

end Binary64

inductive Binary64 where
  | nan
  | infinite (negative : Bool)
  | finite (value : Binary64.Finite)
deriving DecidableEq

namespace Binary64

theorem two_pow_le_unitsLimit {e : Nat} (h : e ≤ limitExponent) : 2 ^ e ≤ unitsLimit :=
  Nat.pow_le_pow_right Nat.two_pos h

theorem representable_mul_two_pow {m e : Nat} (hm : m < 2 ^ precision)
    (he : precision + e ≤ limitExponent) : Representable (m * 2 ^ e) := by
  have hlt : m * 2 ^ e < 2 ^ (precision + e) := by
    rw [Nat.pow_add]
    exact Nat.mul_lt_mul_of_pos_right hm (Nat.two_pow_pos e)
  refine ⟨?_, Nat.lt_of_lt_of_le hlt (two_pow_le_unitsLimit he)⟩
  rcases Nat.eq_zero_or_pos (m * 2 ^ e) with h0 | hpos
  · rw [h0]
    exact Nat.dvd_zero _
  · have hlog : (m * 2 ^ e).log2 < precision + e := (Nat.log2_lt (by omega)).mpr hlt
    exact Nat.dvd_trans (Nat.pow_dvd_pow 2 (by omega)) (Nat.dvd_mul_left _ _)

def roundDiv (num den : Nat) : Nat :=
  let down := num / den
  let rest := num % den
  if 2 * rest < den then down
  else if den < 2 * rest then down + 1
  else down + down % 2

def lastBit (num den : Nat) : Nat := (num / den).log2 + 1 - precision

def roundUnits (num den : Nat) : Nat :=
  roundDiv num (den * 2 ^ lastBit num den) * 2 ^ lastBit num den

theorem roundDiv_le {num den m : Nat} (h : num < m * den) : roundDiv num den ≤ m := by
  have hden : 0 < den := Nat.pos_of_mul_pos_left (Nat.lt_of_le_of_lt (Nat.zero_le _) h)
  have hdown : num / den < m := (Nat.div_lt_iff_lt_mul hden).mpr h
  simp only [roundDiv]
  split
  · omega
  · split <;> omega

theorem lt_two_pow_lastBit {num den : Nat} (hden : 0 < den) :
    num < 2 ^ precision * (den * 2 ^ lastBit num den) := by
  have hq : num / den < 2 ^ (lastBit num den + precision) :=
    Nat.lt_of_lt_of_le Nat.lt_log2_self
      (Nat.pow_le_pow_right Nat.two_pos (by simp only [lastBit]; omega))
  calc num < 2 ^ (lastBit num den + precision) * den := (Nat.div_lt_iff_lt_mul hden).mp hq
    _ = 2 ^ precision * (den * 2 ^ lastBit num den) := by
      rw [Nat.pow_add]
      ac_rfl

theorem roundDiv_lastBit_le {num den : Nat} (hden : 0 < den) :
    roundDiv num (den * 2 ^ lastBit num den) ≤ 2 ^ precision :=
  roundDiv_le (lt_two_pow_lastBit hden)

theorem last_dvd_roundUnits {num den : Nat} (hden : 0 < den) :
    2 ^ ((roundUnits num den).log2 + 1 - precision) ∣ roundUnits num den := by
  simp only [roundUnits]
  rcases Nat.lt_or_eq_of_le (@roundDiv_lastBit_le num den hden) with hlt | heq
  · rcases Nat.eq_zero_or_pos (roundDiv num (den * 2 ^ lastBit num den) * 2 ^ lastBit num den) with h0 | hpos
    · rw [h0]
      exact Nat.dvd_zero _
    · have hbound : roundDiv num (den * 2 ^ lastBit num den) * 2 ^ lastBit num den
          < 2 ^ (precision + lastBit num den) := by
        rw [Nat.pow_add]
        exact Nat.mul_lt_mul_of_pos_right hlt (Nat.two_pow_pos _)
      have hlog := (Nat.log2_lt (by omega)).mpr hbound
      exact Nat.dvd_trans (Nat.pow_dvd_pow 2 (by omega)) (Nat.dvd_mul_left _ _)
  · rw [heq, ← Nat.pow_add, Nat.log2_two_pow]
    exact Nat.pow_dvd_pow 2 (by simp only [precision]; omega)

theorem representable_roundUnits {num den : Nat} (hden : 0 < den)
    (h : roundUnits num den < unitsLimit) : Representable (roundUnits num den) :=
  ⟨last_dvd_roundUnits hden, h⟩

def round (negative : Bool) (num : Nat) (den : Nat) (hden : 0 < den) : Binary64 :=
  if h : roundUnits num den < unitsLimit then
    .finite ⟨negative, roundUnits num den, representable_roundUnits hden h⟩
  else .infinite negative

def ofInt (i : Int) : Binary64 := round (i < 0) (i.natAbs * unitsPerOne) 1 Nat.one_pos

theorem representable_zero : Representable 0 :=
  ⟨Nat.dvd_zero _, Nat.lt_of_lt_of_le Nat.one_pos (two_pow_le_unitsLimit (Nat.zero_le _))⟩

def zero : Binary64 := .finite ⟨false, 0, representable_zero⟩

def toInt? : Binary64 → Option Int
  | .finite ⟨negative, units, _⟩ =>
    if unitsPerOne ∣ units then
      let magnitude : Int := (units / unitsPerOne : Nat)
      some (if negative then -magnitude else magnitude)
    else none
  | _ => none

def numEq : Binary64 → Binary64 → Bool
  | .finite x, .finite y => x.units == y.units && (x.units == 0 || x.negative == y.negative)
  | .infinite x, .infinite y => x == y
  | _, _ => false

end Binary64

end AttributeCodec
