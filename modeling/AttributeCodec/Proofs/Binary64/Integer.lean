import AttributeCodec.Proofs.Binary64.Nearest

namespace AttributeCodec.Binary64

attribute [local instance (high)] instPowNat
attribute [local irreducible] unitExponent limitExponent

namespace Finite

variable {x : Finite} {q : ℚ}

theorem IsNearest.le_dist (h : x.IsNearest q) (y : Finite) : |x.toRat - q| ≤ |y.toRat - q| := by
  by_cases heq : y.toRat = x.toRat
  · rw [heq]
  · exact (h y heq).elim le_of_lt fun htie => le_of_eq htie.1

theorem IsNearest.le_of_le (h : x.IsNearest q) {y : Finite} (hy : y.toRat ≤ q) : y.toRat ≤ x.toRat := by
  by_contra hlt
  have hdist := h.le_dist y
  rw [abs_of_nonpos (sub_nonpos.mpr hy), abs_of_nonpos (by linarith)] at hdist
  linarith

theorem IsNearest.ge_of_ge (h : x.IsNearest q) {y : Finite} (hy : q ≤ y.toRat) : x.toRat ≤ y.toRat := by
  by_contra hlt
  have hdist := h.le_dist y
  rw [abs_of_nonneg (sub_nonneg.mpr hy), abs_of_nonneg (by linarith)] at hdist
  linarith

theorem IsNearest.congr {y : Finite} (h : x.IsNearest q) (hrat : y.toRat = x.toRat) (hunits : y.units = x.units) :
    y.IsNearest q := by
  unfold IsNearest
  rw [hrat, hunits]
  exact h

theorem IsNearest.exists_unsignedZero (h : x.IsNearest q) :
    ∃ y : Finite, unsignedZero (.finite x) = .finite y ∧ y.IsNearest q := by
  by_cases hx : x.units = 0
  · refine ⟨_, unsignedZero_of_zero hx, h.congr ?_ hx.symm⟩
    rw [toRat_eq_zero_iff.mpr hx, toRat_eq_zero_iff]
  · exact ⟨x, unsignedZero_of_ne hx, h⟩

end Finite

theorem dvd_roundUnits {num e : Nat} (h : 2 ^ e ∣ num) : 2 ^ e ∣ roundUnits num 1 := by
  rw [roundUnits, Nat.one_mul]
  generalize lastBit num 1 = last
  rcases Nat.le_total last e with hle | hle
  · obtain ⟨m, rfl⟩ := Nat.dvd_trans (Nat.pow_dvd_pow 2 hle) h
    rw [Nat.mul_comm _ m] at h ⊢
    rwa [roundDiv_mul_right (Nat.two_pow_pos _)]
  · exact Nat.dvd_trans (Nat.pow_dvd_pow 2 hle) (Nat.dvd_mul_left ..)

theorem toInt?_ofInt_of_representable {i : Int} (h : Representable (i.natAbs * unitsPerOne)) :
    (ofInt i).toInt? = some i := by
  rw [ofInt_eq_finite h]
  simp only [toInt?, if_pos (Nat.dvd_mul_left ..), Nat.mul_div_cancel _ unitsPerOne_pos, decide_eq_true_eq]
  split <;> rw [Option.some_inj] <;> omega

theorem holds_of_natAbs_le {i : Int} (h : i.natAbs ≤ 2 ^ precision) : Holds i := by
  refine ⟨ofInt i, toInt?_ofInt_of_representable ?_⟩
  rcases Nat.lt_or_eq_of_le h with hlt | heq
  · exact representable_mul_two_pow hlt (by decide +kernel)
  · rw [heq]
    decide +kernel

def RoundsTo (i z : Int) : Prop := ∃ x : Finite, x.IsNearest i ∧ x.toRat = z

theorem exists_toRat_of_holds {i : Int} (h : Holds i) : ∃ y : Finite, y.toRat = i := by
  obtain ⟨x, hx⟩ := h
  rw [toInt?_eq_some_iff] at hx
  cases x with
  | finite y => exact ⟨y, Option.some_inj.mp hx⟩
  | _ => cases hx

namespace RoundsTo

variable {i z : Int}

theorem unique {w : Int} (h : RoundsTo i z) (hw : RoundsTo i w) : z = w := by
  obtain ⟨x, hx, hz⟩ := h
  obtain ⟨y, hy, hw⟩ := hw
  exact Int.cast_injective (hz.symm.trans ((hx.toRat_eq hy).trans hw))

theorem le_of_le (h : RoundsTo i z) {b : Int} (hb : Holds b) (hle : b ≤ i) : b ≤ z := by
  obtain ⟨x, hx, hz⟩ := h
  obtain ⟨y, hy⟩ := exists_toRat_of_holds hb
  have hle := hx.le_of_le (y := y) (by rw [hy]; exact_mod_cast hle)
  rw [hy, hz] at hle
  exact_mod_cast hle

theorem ge_of_ge (h : RoundsTo i z) {b : Int} (hb : Holds b) (hge : i ≤ b) : z ≤ b := by
  obtain ⟨x, hx, hz⟩ := h
  obtain ⟨y, hy⟩ := exists_toRat_of_holds hb
  have hge := hx.ge_of_ge (y := y) (by rw [hy]; exact_mod_cast hge)
  rw [hy, hz] at hge
  exact_mod_cast hge

end RoundsTo

theorem isNearest_of_ofInt {i : Int} {x : Finite} (h : ofInt i = .finite x) : x.IsNearest i := by
  have hsign : if decide (i < 0) then i ≤ 0 else 0 ≤ i := by
    simp only [decide_eq_true_eq]
    split <;> omega
  have hnearest := isNearest_of_round h
  rwa [Nat.cast_one, div_one, Nat.cast_mul, mul_div_cancel_right₀ _ unitsPerOne_pos_rat.ne', signed_natAbs hsign]
    at hnearest

theorem exists_ofInt_eq_finite {i : Int} (h : i.natAbs < 18446744073709551616) :
    ∃ x : Finite, ofInt i = .finite x := by
  have hnum : i.natAbs * unitsPerOne < 2 ^ (64 + unitExponent) * 1 := by
    rw [Nat.mul_one, Nat.pow_add]
    exact Nat.mul_lt_mul_of_pos_right h unitsPerOne_pos
  exact round_eq_finite_of_lt (i < 0) Nat.one_pos hnum (by decide +kernel) (by decide +kernel)

theorem units_of_ofInt {i : Int} {x : Finite} (h : ofInt i = .finite x) :
    x.units = roundUnits (i.natAbs * unitsPerOne) 1 := (units_of_round h).symm

theorem exists_toInt?_ofInt {i : Int} (h : i.natAbs < 18446744073709551616) :
    ∃ z, (ofInt i).toInt? = some z := by
  obtain ⟨x, hx⟩ := exists_ofInt_eq_finite h
  have hdvd : unitsPerOne ∣ x.units := by
    rw [units_of_ofInt hx]
    exact dvd_roundUnits (Nat.dvd_mul_left ..)
  rw [hx]
  exact toInt?_of_dvd hdvd

section Rounded

variable {i z : Int} (h : (ofInt i).toInt? = some z)

include h

theorem exists_finite_of_toInt? : ∃ x : Finite, ofInt i = .finite x ∧ toInt? (.finite x) = some z := by
  cases hx : ofInt i with
  | finite x => exact ⟨x, rfl, hx ▸ h⟩
  | _ =>
    rw [hx] at h
    cases h

theorem roundsTo_of_toInt? : RoundsTo i z := by
  obtain ⟨x, hx, hz⟩ := exists_finite_of_toInt? h
  exact ⟨x, isNearest_of_ofInt hx, toRat_of_toInt? hz⟩

theorem natAbs_lt_iff {e : Nat} (he : precision + (e + unitExponent) ≤ limitExponent) :
    z.natAbs < 2 ^ precision * 2 ^ e ↔ 2 * i.natAbs < (2 ^ (precision + 1) - 1) * 2 ^ e := by
  obtain ⟨x, hx, hz⟩ := exists_finite_of_toInt? h
  have hunits := (units_of_ofInt hx).symm.trans (toInt?_finite_eq_some hz).1
  have hround := roundUnits_lt_two_pow_iff (i.natAbs * unitsPerOne) Nat.one_pos he
  rwa [hunits, Nat.pow_add 2 e, Nat.mul_one, ← unitsPerOne, ← Nat.mul_assoc, ← Nat.mul_assoc, ← Nat.mul_assoc,
    Nat.mul_lt_mul_right unitsPerOne_pos, Nat.mul_lt_mul_right unitsPerOne_pos] at hround

theorem lt_limit_iff :
    (z < 2 ^ 63 ↔ i < 2 ^ 63 - 512) ∧ (z < 2 ^ 64 ↔ i < 2 ^ 64 - 1024) := by
  have hround := roundsTo_of_toInt? h
  have hsigned := natAbs_lt_iff h (e := 10) (by decide +kernel)
  have hunsigned := natAbs_lt_iff h (e := 11) (by decide +kernel)
  simp only [precision] at hsigned hunsigned
  rcases Int.le_total 0 i with hi | hi
  · have hz := hround.le_of_le holds_zero hi
    omega
  · have hz := hround.ge_of_ge holds_zero hi
    omega

end Rounded

end AttributeCodec.Binary64
