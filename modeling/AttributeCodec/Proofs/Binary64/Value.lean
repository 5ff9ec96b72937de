import AttributeCodec.Proofs.Binary64.Whole
import Mathlib.Data.Rat.Cast.Order

namespace AttributeCodec

attribute [local instance (high)] instPowNat

def signed (negative : Bool) (q : ℚ) : ℚ := if negative then -q else q

@[simp]
theorem signed_zero (negative : Bool) : signed negative 0 = 0 := by cases negative <;> simp [signed]

theorem abs_signed (negative : Bool) (q : ℚ) : |signed negative q| = |q| := by
  cases negative <;> simp [signed]

theorem signed_not (negative : Bool) (q : ℚ) : signed (!negative) q = -signed negative q := by
  cases negative <;> simp [signed]

theorem signed_add (negative : Bool) (p q : ℚ) :
    signed negative (p + q) = signed negative p + signed negative q := by
  cases negative
  · rfl
  · exact neg_add p q

theorem signed_sub (negative : Bool) (p q : ℚ) :
    signed negative p - signed negative q = signed negative (p - q) := by
  cases negative
  · rfl
  · exact (neg_sub' p q).symm

theorem signed_injective (negative : Bool) : Function.Injective (signed negative) := by
  cases negative
  · exact fun _ _ h => h
  · exact neg_injective

theorem signed_natAbs {negative : Bool} {i : Int} (h : if negative then i ≤ 0 else 0 ≤ i) :
    signed negative (i.natAbs : ℚ) = i := by
  cases negative <;> simp only [Bool.false_eq_true, if_true, if_false] at h
  · have habs : ((i.natAbs : ℤ) : ℚ) = i := congrArg _ (Int.natAbs_of_nonneg h)
    exact habs
  · have habs : ((-(i.natAbs : ℤ) : ℤ) : ℚ) = i := congrArg _ (by omega)
    rw [Int.cast_neg] at habs
    exact habs

namespace Binary64

theorem unitsPerOne_pos_rat : (0 : ℚ) < unitsPerOne := by exact_mod_cast unitsPerOne_pos

namespace Finite

def toRat (x : Finite) : ℚ := signed x.negative (x.units / unitsPerOne)

theorem magnitude_nonneg (x : Finite) : (0 : ℚ) ≤ x.units / unitsPerOne :=
  div_nonneg (Nat.cast_nonneg _) unitsPerOne_pos_rat.le

theorem toRat_eq_zero_iff {x : Finite} : x.toRat = 0 ↔ x.units = 0 := by
  rw [toRat, ← signed_zero x.negative, (signed_injective _).eq_iff, div_eq_zero_iff,
    or_iff_left unitsPerOne_pos_rat.ne', Nat.cast_eq_zero]

theorem toRat_eq_iff_of_negative {x y : Finite} (h : x.negative = y.negative) :
    x.toRat = y.toRat ↔ x.units = y.units := by
  rw [toRat, toRat, h, (signed_injective _).eq_iff, div_left_inj' unitsPerOne_pos_rat.ne', Nat.cast_inj]

theorem toRat_ne_of_negative {x y : Finite} (h : x.negative ≠ y.negative) (hx : x.units ≠ 0) :
    x.toRat ≠ y.toRat := by
  have hxpos : (0 : ℚ) < x.units / unitsPerOne :=
    div_pos (by exact_mod_cast Nat.pos_of_ne_zero hx) unitsPerOne_pos_rat
  rw [toRat, toRat, Bool.eq_not.mpr h]
  cases y.negative
  · exact ne_of_lt (lt_of_lt_of_le (neg_neg_of_pos hxpos) y.magnitude_nonneg)
  · exact ne_of_gt (lt_of_le_of_lt (neg_nonpos_of_nonneg y.magnitude_nonneg) hxpos)

theorem toRat_eq_iff {x y : Finite} :
    x.toRat = y.toRat ↔ unsignedZero (.finite x) = unsignedZero (.finite y) := by
  rw [unsignedZero_finite_eq_iff]
  simp only [numEq, Bool.and_eq_true, Bool.or_eq_true, beq_iff_eq]
  by_cases hx : x.units = 0
  · rw [toRat_eq_zero_iff.mpr hx, eq_comm, toRat_eq_zero_iff, hx, eq_comm]
    simp
  · by_cases hsign : x.negative = y.negative
    · simp [toRat_eq_iff_of_negative hsign, hsign]
    · simp [toRat_ne_of_negative hsign hx, hx, hsign]

end Finite

def toRat? : Binary64 → Option ℚ
  | .finite x => some x.toRat
  | _ => none

theorem toRat_of_toInt? {x : Finite} {i : Int} (h : toInt? (.finite x) = some i) : x.toRat = i := by
  obtain ⟨hunits, hsign⟩ := toInt?_finite_eq_some h
  rw [Finite.toRat, hunits, Nat.cast_mul, mul_div_cancel_right₀ _ unitsPerOne_pos_rat.ne', signed_natAbs hsign]

theorem toInt?_of_dvd {x : Finite} (h : unitsPerOne ∣ x.units) : ∃ i, toInt? (.finite x) = some i := by
  simp only [toInt?, if_pos h]
  exact ⟨_, rfl⟩

theorem dvd_units_of_toRat {x : Finite} {i : Int} (h : x.toRat = i) : unitsPerOne ∣ x.units := by
  have habs : |x.toRat| = |(i : ℚ)| := congrArg _ h
  rw [Finite.toRat, abs_signed, abs_of_nonneg x.magnitude_nonneg, div_eq_iff unitsPerOne_pos_rat.ne'] at habs
  have hunits : x.units = i.natAbs * unitsPerOne := by
    rw [← Int.cast_abs, Int.abs_eq_natAbs] at habs
    exact_mod_cast habs
  exact ⟨i.natAbs, hunits.trans (Nat.mul_comm ..)⟩

theorem toInt?_eq_some_iff {x : Binary64} {i : Int} : x.toInt? = some i ↔ x.toRat? = some (i : ℚ) := by
  cases x with
  | nan => simp [toInt?, toRat?]
  | infinite => simp [toInt?, toRat?]
  | finite x =>
    rw [toRat?, Option.some_inj]
    constructor
    · exact toRat_of_toInt?
    · intro h
      obtain ⟨j, hj⟩ := toInt?_of_dvd (dvd_units_of_toRat h)
      have hij : (j : ℚ) = i := (toRat_of_toInt? hj).symm.trans h
      rw [hj, Int.cast_injective hij]

end Binary64

end AttributeCodec
