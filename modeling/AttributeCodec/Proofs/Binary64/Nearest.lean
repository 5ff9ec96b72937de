import AttributeCodec.Proofs.Binary64.Value
import Mathlib.Algebra.Order.Field.Basic
import Mathlib.Algebra.Order.Ring.Abs
import Mathlib.Data.Nat.Cast.Order.Field
import Mathlib.Tactic.Linarith
import Mathlib.Tactic.Positivity

/-! Rounding is to the nearest value, a tie to the one with the even significand. -/

namespace AttributeCodec.Binary64

attribute [local instance (high)] instPowNat

section RoundDiv

variable (num : Nat) {den : Nat} (hden : 0 < den)

include hden

theorem div_add_mod_rat : (num : ℚ) / den = (num / den : ℕ) + (num % den : ℕ) / den := by
  have hpos : (0 : ℚ) < den := by exact_mod_cast hden
  rw [div_eq_iff hpos.ne', add_mul, div_mul_cancel₀ _ hpos.ne', mul_comm]
  exact_mod_cast (Nat.div_add_mod num den).symm

theorem rest_lt_half_iff : 2 * (num % den) < den ↔ ((num % den : ℕ) : ℚ) / den < 1 / 2 := by
  have hpos : (0 : ℚ) < den := by exact_mod_cast hden
  rw [div_lt_div_iff₀ hpos two_pos, one_mul, mul_comm]
  exact_mod_cast Iff.rfl

theorem half_lt_rest_iff : den < 2 * (num % den) ↔ 1 / 2 < ((num % den : ℕ) : ℚ) / den := by
  have hpos : (0 : ℚ) < den := by exact_mod_cast hden
  rw [div_lt_div_iff₀ two_pos hpos, one_mul, mul_comm _ (2 : ℚ)]
  exact_mod_cast Iff.rfl

theorem rest_lt_one : ((num % den : ℕ) : ℚ) / den < 1 := by
  have hpos : (0 : ℚ) < den := by exact_mod_cast hden
  rw [div_lt_one hpos]
  exact_mod_cast Nat.mod_lt num hden

theorem roundDiv_near :
    |(roundDiv num den : ℚ) - num / den| < 1 / 2 ∨
      |(roundDiv num den : ℚ) - num / den| = 1 / 2 ∧ 2 ∣ roundDiv num den := by
  have hnonneg : (0 : ℚ) ≤ ((num % den : ℕ) : ℚ) / den := by positivity
  have hone := rest_lt_one num hden
  rw [div_add_mod_rat num hden]
  simp only [roundDiv, rest_lt_half_iff num hden, half_lt_rest_iff num hden]
  generalize ((num % den : ℕ) : ℚ) / den = rest at *
  split
  · left
    rw [abs_lt]
    constructor <;> linarith
  · next hlow =>
    split
    · left
      push_cast
      rw [abs_lt]
      constructor <;> linarith
    · next hhigh =>
      have hhalf : rest = 1 / 2 := le_antisymm (le_of_not_gt hhigh) (le_of_not_gt hlow)
      right
      refine ⟨?_, by omega⟩
      rw [hhalf]
      rcases Nat.mod_two_eq_zero_or_one (num / den) with heven | hodd
      · rw [heven]
        norm_num
      · rw [hodd]
        push_cast
        norm_num

theorem roundDiv_nearest {k : Nat} (hk : k ≠ roundDiv num den) :
    |(roundDiv num den : ℚ) - num / den| < |(k : ℚ) - num / den| ∨
      |(roundDiv num den : ℚ) - num / den| = |(k : ℚ) - num / den| ∧
        2 ∣ roundDiv num den ∧ ¬2 ∣ k ∧ |(k : ℚ) - num / den| = 1 / 2 := by
  have hapart : 1 ≤ |(k : ℚ) - roundDiv num den| := by
    have hint : (1 : ℤ) ≤ |(k : ℤ) - roundDiv num den| := Int.one_le_abs (by omega)
    exact_mod_cast hint
  have htriangle := abs_sub_le (k : ℚ) (num / den) (roundDiv num den)
  rw [abs_sub_comm ((num : ℚ) / den)] at htriangle
  rcases roundDiv_near num hden with hlt | ⟨heq, heven⟩
  · left
    linarith
  · rcases lt_or_eq_of_le (show 1 / 2 ≤ |(k : ℚ) - num / den| by linarith) with hfar | htie
    · left
      linarith
    · right
      refine ⟨heq.trans htie, heven, ?_, htie.symm⟩
      -- Two whole numbers half a unit away from the same quotient are one apart.
      have hnext : |(k : ℤ) - roundDiv num den| ≤ 1 := by
        have hrat : |(k : ℚ) - roundDiv num den| ≤ 1 := by linarith
        exact_mod_cast hrat
      have hne : (k : ℤ) - roundDiv num den ≠ 0 := by omega
      rw [abs_le] at hnext
      omega

theorem roundDiv_le_dist (k : Nat) : |(roundDiv num den : ℚ) - num / den| ≤ |(k : ℚ) - num / den| := by
  by_cases hk : k = roundDiv num den
  · rw [hk]
  · exact (roundDiv_nearest num hden hk).elim le_of_lt fun h => le_of_eq h.1

end RoundDiv

def lastExponent (units : Nat) : Nat := units.log2 + 1 - precision

def HasEvenSignificand (units : Nat) : Prop := 2 ^ (lastExponent units + 1) ∣ units

theorem lastExponent_le {units e : Nat} (h : units < 2 ^ (precision + e)) : lastExponent units ≤ e := by
  rcases Nat.eq_zero_or_pos units with rfl | hpos
  · exact Nat.zero_le _
  · have hlog : units.log2 < precision + e := (Nat.log2_lt (by omega)).mpr h
    simp only [lastExponent]
    omega

theorem le_lastExponent {units e : Nat} (h : 2 ^ (precision - 1) * 2 ^ e ≤ units) : e ≤ lastExponent units := by
  rw [← Nat.pow_add] at h
  have hpos := Nat.two_pow_pos (precision - 1 + e)
  have hlog : precision - 1 + e ≤ units.log2 := (Nat.le_log2 (by omega)).mpr h
  simp only [lastExponent, precision] at *
  omega

theorem not_hasEvenSignificand {k e : Nat} (hodd : ¬2 ∣ k) (hlead : e = 0 ∨ 2 ^ (precision - 1) ≤ k) :
    ¬HasEvenSignificand (k * 2 ^ e) := by
  have hlast : e ≤ lastExponent (k * 2 ^ e) := by
    rcases hlead with rfl | hle
    · exact Nat.zero_le _
    · exact le_lastExponent (Nat.mul_le_mul_right _ hle)
  intro heven
  have hdvd := Nat.dvd_trans (Nat.pow_dvd_pow 2 (Nat.succ_le_succ hlast)) heven
  rw [Nat.pow_succ'] at hdvd
  exact hodd (Nat.dvd_of_mul_dvd_mul_right (Nat.two_pow_pos e) hdvd)

theorem HasEvenSignificand.dvd {units : Nat} (h : HasEvenSignificand units) : 2 ^ lastExponent units ∣ units :=
  Nat.dvd_trans (Nat.pow_dvd_pow 2 (Nat.le_succ _)) h

theorem hasEvenSignificand_two_pow {e : Nat} (he : 0 < e) : HasEvenSignificand (2 ^ e) := by
  rw [HasEvenSignificand, lastExponent, Nat.log2_two_pow]
  exact Nat.pow_dvd_pow 2 (by simp only [precision]; omega)

theorem le_of_lt_two_pow {units e : Nat} (hgrid : 2 ^ lastExponent units ∣ units)
    (h : units < 2 ^ precision * 2 ^ e) : units ≤ (2 ^ precision - 1) * 2 ^ e := by
  by_cases hlead : 2 ^ (precision - 1) * 2 ^ e ≤ units
  · obtain ⟨k, rfl⟩ := Nat.dvd_trans (Nat.pow_dvd_pow 2 (le_lastExponent hlead)) hgrid
    rw [Nat.mul_comm] at h ⊢
    have hk := Nat.lt_of_mul_lt_mul_right h
    exact Nat.mul_le_mul_right _ (Nat.le_sub_one_of_lt hk)
  · exact Nat.le_trans (Nat.le_of_not_le hlead) (Nat.mul_le_mul_right _ (by decide))

theorem last_lt_power (e : Nat) :
    ((2 ^ precision - 1) * 2 ^ e : ℕ) < ((2 ^ precision * 2 ^ e : ℕ) : ℚ) := by
  have hlt : 2 ^ precision - 1 < 2 ^ precision := Nat.sub_lt (Nat.two_pow_pos _) Nat.one_pos
  exact_mod_cast Nat.mul_lt_mul_of_pos_right hlt (Nat.two_pow_pos e)

theorem hasEvenSignificand_power (e : Nat) : HasEvenSignificand (2 ^ precision * 2 ^ e) := by
  rw [← Nat.pow_add]
  exact hasEvenSignificand_two_pow (by simp only [precision]; omega)

theorem abs_sub_lt_of_lt_mid {a b r t : ℚ} (hab : a < b) (hmid : 2 * t < a + b) (hr : b ≤ r) :
    |a - t| < |r - t| := by
  rw [abs_of_nonneg (a := r - t) (by linarith), abs_lt]
  constructor <;> linarith

theorem abs_sub_le_of_mid_le {a b r t : ℚ} (hab : a < b) (hmid : a + b ≤ 2 * t) (hr : r ≤ a) :
    |b - t| ≤ |r - t| := by
  rw [abs_of_nonpos (a := r - t) (by linarith), abs_le]
  constructor <;> linarith

def overflowLimit : Nat := 2 ^ 1024 - 2 ^ 970

section RoundUnits

variable (num : Nat) {den : Nat}

theorem two_pow_le_quotient (h : lastBit num den ≠ 0) :
    2 ^ (precision - 1) * 2 ^ lastBit num den ≤ num / den := by
  have hq : num / den ≠ 0 := by
    intro hzero
    apply h
    rw [lastBit, hzero]
    rfl
  refine Nat.le_trans ?_ (Nat.log2_self_le hq)
  rw [← Nat.pow_add]
  refine Nat.pow_le_pow_right Nat.two_pos ?_
  simp only [lastBit, precision] at *
  omega

theorem quotient_scaled :
    (num : ℚ) / (den * 2 ^ lastBit num den : ℕ) * (2 ^ lastBit num den : ℕ) = num / den := by
  have hgrid : ((2 ^ lastBit num den : ℕ) : ℚ) ≠ 0 := by exact_mod_cast (Nat.two_pow_pos _).ne'
  rw [Nat.cast_mul, ← div_div, div_mul_cancel₀ _ hgrid]

theorem abs_mul_grid (k : Nat) :
    |((k * 2 ^ lastBit num den : ℕ) : ℚ) - num / den| =
      |(k : ℚ) - num / (den * 2 ^ lastBit num den : ℕ)| * (2 ^ lastBit num den : ℕ) := by
  rw [← quotient_scaled num, Nat.cast_mul, ← sub_mul, abs_mul, Nat.abs_cast]

variable (hden : 0 < den)

include hden

theorem roundUnits_le_of_grid (k : Nat) :
    |(roundUnits num den : ℚ) - num / den| ≤ |((k * 2 ^ lastBit num den : ℕ) : ℚ) - num / den| := by
  rw [roundUnits, abs_mul_grid num, abs_mul_grid num]
  apply mul_le_mul_of_nonneg_right _ (Nat.cast_nonneg _)
  exact roundDiv_le_dist num (Nat.mul_pos hden (Nat.two_pow_pos _)) k

theorem hasEvenSignificand_roundUnits (h : 2 ∣ roundDiv num (den * 2 ^ lastBit num den)) :
    HasEvenSignificand (roundUnits num den) := by
  rcases Nat.lt_or_eq_of_le (@roundDiv_lastBit_le num den hden) with hlt | heq
  · have hlast : lastExponent (roundUnits num den) ≤ lastBit num den := by
      apply lastExponent_le
      rw [roundUnits, Nat.pow_add]
      exact Nat.mul_lt_mul_of_pos_right hlt (Nat.two_pow_pos _)
    refine Nat.dvd_trans (Nat.pow_dvd_pow 2 (Nat.succ_le_succ hlast)) ?_
    rw [roundUnits, Nat.pow_succ']
    exact Nat.mul_dvd_mul_right h _
  · rw [roundUnits, heq, ← Nat.pow_add]
    exact hasEvenSignificand_two_pow (by simp only [precision]; omega)

theorem two_pow_le_of_half {k : Nat} (h : lastBit num den ≠ 0)
    (hhalf : |(k : ℚ) - num / (den * 2 ^ lastBit num den : ℕ)| = 1 / 2) : 2 ^ (precision - 1) ≤ k := by
  have hscale : 0 < den * 2 ^ lastBit num den := Nat.mul_pos hden (Nat.two_pow_pos _)
  have hlead : ((2 ^ (precision - 1) : ℕ) : ℚ) ≤ num / (den * 2 ^ lastBit num den : ℕ) := by
    have hnum := (Nat.le_div_iff_mul_le hden).mp (two_pow_le_quotient num h)
    rw [Nat.mul_assoc, Nat.mul_comm _ den] at hnum
    rw [le_div_iff₀ (by exact_mod_cast hscale)]
    exact_mod_cast hnum
  have hbelow := neg_le_of_abs_le (le_of_eq hhalf)
  have hlt : ((2 ^ (precision - 1) : ℕ) : ℚ) < (k + 1 : ℕ) := by
    push_cast at *
    linarith
  exact Nat.le_of_lt_succ (by exact_mod_cast hlt)

theorem roundUnits_nearest_of_grid {k : Nat} (hk : k ≠ roundDiv num (den * 2 ^ lastBit num den)) :
    |(roundUnits num den : ℚ) - num / den| < |((k * 2 ^ lastBit num den : ℕ) : ℚ) - num / den| ∨
      |(roundUnits num den : ℚ) - num / den| = |((k * 2 ^ lastBit num den : ℕ) : ℚ) - num / den| ∧
        HasEvenSignificand (roundUnits num den) ∧ ¬HasEvenSignificand (k * 2 ^ lastBit num den) := by
  have hscale : 0 < den * 2 ^ lastBit num den := Nat.mul_pos hden (Nat.two_pow_pos _)
  rw [roundUnits, abs_mul_grid num, abs_mul_grid num, ← roundUnits]
  rcases roundDiv_nearest num hscale hk with hlt | ⟨heq, heven, hodd, hhalf⟩
  · left
    apply mul_lt_mul_of_pos_right hlt
    exact_mod_cast Nat.two_pow_pos _
  · right
    refine ⟨by rw [heq], hasEvenSignificand_roundUnits num hden heven, ?_⟩
    apply not_hasEvenSignificand hodd
    by_cases hzero : lastBit num den = 0
    · exact .inl hzero
    · exact .inr (two_pow_le_of_half num hden hzero hhalf)

theorem roundUnits_nearer_of_finer {units : Nat} (hlast : lastBit num den ≠ 0)
    (h : units < 2 ^ (precision - 1) * 2 ^ lastBit num den) :
    |(roundUnits num den : ℚ) - num / den| < |(units : ℚ) - num / den| := by
  have hlead : ((2 ^ (precision - 1) * 2 ^ lastBit num den : ℕ) : ℚ) ≤ num / den :=
    le_trans (by exact_mod_cast two_pow_le_quotient num hlast) Nat.cast_div_le
  have hlt : (units : ℚ) < (2 ^ (precision - 1) * 2 ^ lastBit num den : ℕ) := by exact_mod_cast h
  apply lt_of_le_of_lt (roundUnits_le_of_grid num hden (2 ^ (precision - 1)))
  rw [abs_of_nonpos (sub_nonpos.mpr hlead), abs_of_nonpos (by linarith)]
  linarith

theorem roundUnits_nearest {units : Nat} (hgrid : 2 ^ lastExponent units ∣ units)
    (hne : units ≠ roundUnits num den) :
    |(roundUnits num den : ℚ) - num / den| < |(units : ℚ) - num / den| ∨
      |(roundUnits num den : ℚ) - num / den| = |(units : ℚ) - num / den| ∧
        HasEvenSignificand (roundUnits num den) ∧ ¬HasEvenSignificand units := by
  by_cases hfine : lastBit num den ≤ lastExponent units
  · obtain ⟨k, hk⟩ := Nat.dvd_trans (Nat.pow_dvd_pow 2 hfine) hgrid
    obtain rfl : units = k * 2 ^ lastBit num den := hk.trans (Nat.mul_comm ..)
    apply roundUnits_nearest_of_grid num hden
    rintro rfl
    exact hne rfl
  · left
    apply roundUnits_nearer_of_finer num hden (by omega)
    by_contra hle
    exact hfine (le_lastExponent (Nat.le_of_not_lt hle))

theorem roundUnits_le_dist {units : Nat} (hgrid : 2 ^ lastExponent units ∣ units) :
    |(roundUnits num den : ℚ) - num / den| ≤ |(units : ℚ) - num / den| := by
  by_cases heq : units = roundUnits num den
  · rw [heq]
  · exact (roundUnits_nearest num hden hgrid heq).elim le_of_lt fun h => le_of_eq h.1

section Power

variable {e : Nat} (he : precision + e ≤ limitExponent)

theorem lt_mid_iff : 2 * num < (2 ^ (precision + 1) - 1) * 2 ^ e * den ↔
    2 * ((num : ℚ) / den) < ((2 ^ precision - 1) * 2 ^ e : ℕ) + (2 ^ precision * 2 ^ e : ℕ) := by
  have hpos : (0 : ℚ) < den := by exact_mod_cast hden
  rw [← mul_div_assoc, div_lt_iff₀ hpos, ← Nat.cast_add, ← Nat.add_mul]
  exact_mod_cast Iff.rfl

include he

theorem lt_mid_of_roundUnits (h : roundUnits num den < 2 ^ precision * 2 ^ e) :
    2 * num < (2 ^ (precision + 1) - 1) * 2 ^ e * den := by
  have hlimit : roundUnits num den < unitsLimit := by
    apply Nat.lt_of_lt_of_le h
    rw [← Nat.pow_add]
    exact two_pow_le_unitsLimit he
  have hlast : (roundUnits num den : ℚ) ≤ ((2 ^ precision - 1) * 2 ^ e : ℕ) := by
    exact_mod_cast le_of_lt_two_pow (representable_roundUnits hden hlimit).1 h
  rw [lt_mid_iff num hden]
  by_contra hmid
  have hdist := abs_sub_le_of_mid_le (last_lt_power e) (le_of_not_gt hmid) hlast
  rcases roundUnits_nearest num hden (hasEvenSignificand_power e).dvd (ne_of_gt h) with hnear | ⟨-, -, hodd⟩
  · exact not_lt_of_ge hdist hnear
  · exact hodd (hasEvenSignificand_power e)

theorem roundUnits_lt_of_lt_mid (h : 2 * num < (2 ^ (precision + 1) - 1) * 2 ^ e * den) :
    roundUnits num den < 2 ^ precision * 2 ^ e := by
  have hgrid := (representable_mul_two_pow (Nat.sub_lt (Nat.two_pow_pos _) Nat.one_pos) he).1
  rw [lt_mid_iff num hden] at h
  by_contra hle
  have hreach : ((2 ^ precision * 2 ^ e : ℕ) : ℚ) ≤ roundUnits num den := by
    exact_mod_cast Nat.le_of_not_lt hle
  apply not_lt_of_ge (roundUnits_le_dist num hden hgrid)
  exact abs_sub_lt_of_lt_mid (last_lt_power e) h hreach

theorem roundUnits_lt_two_pow_iff :
    roundUnits num den < 2 ^ precision * 2 ^ e ↔ 2 * num < (2 ^ (precision + 1) - 1) * 2 ^ e * den :=
  ⟨lt_mid_of_roundUnits num hden he, roundUnits_lt_of_lt_mid num hden he⟩

end Power

theorem roundUnits_lt_unitsLimit_iff :
    roundUnits num den < unitsLimit ↔ (num : ℚ) / den / unitsPerOne < overflowLimit := by
  have hlimit : unitsLimit = 2 ^ precision * 2 ^ (limitExponent - precision) := by
    rw [← Nat.pow_add, Nat.add_sub_of_le (by decide), unitsLimit]
  have hoverflow : 2 * (overflowLimit * unitsPerOne) =
      (2 ^ (precision + 1) - 1) * 2 ^ (limitExponent - precision) := by decide +kernel
  have hdenpos : (0 : ℚ) < den := by exact_mod_cast hden
  rw [hlimit, roundUnits_lt_two_pow_iff num hden (Nat.le_of_eq rfl), ← hoverflow,
    div_lt_iff₀ unitsPerOne_pos_rat, div_lt_iff₀ hdenpos, Nat.mul_assoc 2, Nat.mul_lt_mul_left Nat.two_pos]
  exact_mod_cast Iff.rfl

end RoundUnits

theorem exists_round_eq_finite_iff {negative : Bool} {num den : Nat} {hden : 0 < den} :
    (∃ x, round negative num den hden = .finite x) ↔ (num : ℚ) / den / unitsPerOne < overflowLimit := by
  rw [← roundUnits_lt_unitsLimit_iff num hden]
  unfold round
  split
  · next hlt => exact iff_of_true ⟨_, rfl⟩ hlt
  · next hge => exact iff_of_false (by rintro ⟨x, ⟨⟩⟩) hge

theorem round_eq_infinite_iff {negative : Bool} {num den : Nat} {hden : 0 < den} :
    round negative num den hden = .infinite negative ↔ overflowLimit ≤ (num : ℚ) / den / unitsPerOne := by
  rw [← not_lt, ← roundUnits_lt_unitsLimit_iff num hden]
  unfold round
  split
  · next hlt => exact iff_of_false (by rintro ⟨⟩) (not_not_intro hlt)
  · next hge => exact iff_of_true rfl hge

namespace Finite

/-- No other value is as near, unless this is the one of the two with the even significand. -/
def IsNearest (x : Finite) (q : ℚ) : Prop :=
  ∀ y : Finite, y.toRat ≠ x.toRat →
    |x.toRat - q| < |y.toRat - q| ∨
      |x.toRat - q| = |y.toRat - q| ∧ HasEvenSignificand x.units ∧ ¬HasEvenSignificand y.units

theorem IsNearest.toRat_eq {x y : Finite} {q : ℚ} (hx : x.IsNearest q) (hy : y.IsNearest q) :
    x.toRat = y.toRat := by
  by_contra hne
  rcases hx y (Ne.symm hne) with hlt | ⟨heq, heven, hodd⟩
  · rcases hy x hne with hlt' | ⟨heq, -, -⟩
    · exact lt_asymm hlt hlt'
    · exact hlt.ne' heq
  · rcases hy x hne with hlt | ⟨-, heven', -⟩
    · exact hlt.ne' heq
    · exact hodd heven'

theorem toRat_eq_signed {x : Finite} {negative : Bool} (h : x.negative = negative ∨ x.units = 0) :
    x.toRat = signed negative (x.units / unitsPerOne) := by
  rcases h with rfl | hzero
  · rfl
  · rw [toRat, hzero, Nat.cast_zero, zero_div, signed_zero, signed_zero]

theorem abs_toRat_sub {x : Finite} {negative : Bool} (h : x.negative = negative ∨ x.units = 0) (t : ℚ) :
    |x.toRat - signed negative (t / unitsPerOne)| = |x.units - t| / unitsPerOne := by
  rw [toRat_eq_signed h, signed_sub, abs_signed, ← sub_div, abs_div, Nat.abs_cast]

theorem abs_toRat_sub_of_ne {x : Finite} {negative : Bool} (h : x.negative ≠ negative) {t : ℚ} (ht : 0 ≤ t) :
    |x.toRat - signed negative (t / unitsPerOne)| = (x.units + t) / unitsPerOne := by
  have hsum : (0 : ℚ) ≤ (x.units + t) / unitsPerOne :=
    div_nonneg (add_nonneg (Nat.cast_nonneg _) ht) unitsPerOne_pos_rat.le
  have hdiff : x.toRat - signed negative (t / unitsPerOne) =
      signed x.negative ((x.units + t) / unitsPerOne) := by
    rw [Bool.eq_not.mpr h.symm, signed_not, sub_neg_eq_add, toRat, add_div, signed_add]
  rw [hdiff, abs_signed, abs_of_nonneg hsum]

end Finite

theorem isNearest_of_round {negative : Bool} {num den : Nat} {hden : 0 < den} {x : Finite}
    (h : round negative num den hden = .finite x) :
    x.IsNearest (signed negative (num / den / unitsPerOne)) := by
  unfold round at h
  split at h
  · next hlt =>
    obtain ⟨⟩ := h
    intro y hne
    have hpos := unitsPerOne_pos_rat
    rw [Finite.abs_toRat_sub (.inl rfl)]
    by_cases hsign : y.negative = negative ∨ y.units = 0
    · have hunits : y.units ≠ roundUnits num den := by
        intro heq
        apply hne
        rw [Finite.toRat_eq_signed hsign, heq]
        rfl
      rw [Finite.abs_toRat_sub hsign, div_lt_div_iff_of_pos_right hpos, div_left_inj' hpos.ne']
      exact roundUnits_nearest num hden y.representable.1 hunits
    · -- On the other side of zero there is nothing nearer than zero.
      left
      rw [not_or] at hsign
      have hquotient : (0 : ℚ) ≤ num / den := div_nonneg (Nat.cast_nonneg _) (Nat.cast_nonneg _)
      have hunits : (0 : ℚ) < y.units := by exact_mod_cast Nat.pos_of_ne_zero hsign.2
      have hzero := roundUnits_le_dist num hden (Nat.dvd_zero (2 ^ lastExponent 0))
      rw [Nat.cast_zero, zero_sub, abs_neg, abs_of_nonneg hquotient] at hzero
      rw [Finite.abs_toRat_sub_of_ne hsign.1 hquotient, div_lt_div_iff_of_pos_right hpos]
      exact lt_of_le_of_lt hzero (lt_add_of_pos_left _ hunits)
  · cases h

end AttributeCodec.Binary64
