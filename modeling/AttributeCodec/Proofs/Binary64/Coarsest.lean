import AttributeCodec.Proofs.Binary64.Monotone
import AttributeCodec.Proofs.Binary64.Shortest
import AttributeCodec.Proofs.Numeral.Significant

/-! No decimal that rounds to a value has fewer significant digits than the one on the coarsest grid. -/

namespace AttributeCodec.Binary64

open Numeral (significantDigits significantDigits_le_iff)

attribute [local instance (high)] instPowNat
attribute [local irreducible] unitExponent limitExponent

section Grid

variable {units : Nat}

theorem ReadsBack.between {low middle high : Nat} (hlow : ReadsBack units low) (hhigh : ReadsBack units high)
    (hle : low ≤ middle) (hge : middle ≤ high) : ReadsBack units middle := by
  apply Nat.le_antisymm
  · exact le_of_le_of_eq (roundUnits_le_of_le stepsPerUnit_pos hge) hhigh
  · exact le_of_eq_of_le (Eq.symm hlow) (roundUnits_le_of_le stepsPerUnit_pos hle)

theorem exists_nearestOnGrid? (h : Representable units) {grid steps : Nat} (hgrid : 0 < grid)
    (hdvd : grid ∣ steps) (hback : ReadsBack units steps) : ∃ found, nearestOnGrid? units grid = some found := by
  obtain ⟨k, rfl⟩ := hdvd
  have hexact := readsBack_stepsOfUnits h
  have hbelow : stepsOfUnits units / grid * grid ≤ stepsOfUnits units := Nat.div_mul_le_self ..
  have habove : stepsOfUnits units < stepsOfUnits units / grid * grid + grid := Nat.lt_div_mul_add hgrid
  -- One of the two neighbours lies between the given multiple and the exact value.
  have hneighbour : ReadsBack units (stepsOfUnits units / grid * grid) ∨
      ReadsBack units (stepsOfUnits units / grid * grid + grid) := by
    rcases Nat.lt_or_ge (stepsOfUnits units) (grid * k) with hlt | hle
    · right
      apply hexact.between hback (Nat.le_of_lt habove)
      rw [← Nat.succ_mul, Nat.mul_comm grid]
      apply Nat.mul_le_mul_right
      exact (Nat.div_lt_iff_lt_mul hgrid).mpr (by rwa [Nat.mul_comm])
    · left
      apply hback.between hexact _ hbelow
      rw [Nat.mul_comm]
      apply Nat.mul_le_mul_right
      exact (Nat.le_div_iff_mul_le hgrid).mpr (by rwa [Nat.mul_comm])
  by_cases hlow : ReadsBack units (stepsOfUnits units / grid * grid) <;>
    by_cases hhigh : ReadsBack units (stepsOfUnits units / grid * grid + grid)
  · simp only [nearestOnGrid?, hlow, hhigh]
    split <;> simp
  · simp [nearestOnGrid?, hlow, hhigh]
  · simp [nearestOnGrid?, hlow, hhigh]
  · exact absurd hneighbour (by simp [hlow, hhigh])

theorem dvd_of_nearestOnGrid? {grid steps : Nat} (h : nearestOnGrid? units grid = some steps) : grid ∣ steps := by
  simp only [nearestOnGrid?] at h
  split at h
  · cases h
    exact Nat.dvd_mul_left ..
  · split at h
    · cases h
      exact (Nat.dvd_add_right (Nat.dvd_mul_left ..)).mpr (Nat.dvd_refl _)
    · cases h

theorem exists_grid_shortestFrom (h : Representable units) (top : Nat) :
    ∃ e ≤ top, 10 ^ e ∣ shortestFrom units top ∧
      ∀ j, e < j → j ≤ top → ∀ steps, 10 ^ j ∣ steps → ¬ReadsBack units steps := by
  induction top with
  | zero => exact ⟨0, le_rfl, by simp, fun j hlt hle => absurd hlt (Nat.not_lt.mpr hle)⟩
  | succ top ih =>
    rw [shortestFrom]
    cases hgrid : nearestOnGrid? units (10 ^ (top + 1)) with
    | some steps =>
      exact ⟨top + 1, le_rfl, dvd_of_nearestOnGrid? hgrid, fun j hlt hle => absurd hlt (Nat.not_lt.mpr hle)⟩
    | none =>
      obtain ⟨e, he, hdvd, hfiner⟩ := ih
      refine ⟨e, Nat.le_succ_of_le he, hdvd, fun j hlt hle steps hsteps hback => ?_⟩
      rcases Nat.lt_or_eq_of_le hle with hlt' | rfl
      · exact hfiner j hlt (Nat.le_of_lt_succ hlt') steps hsteps hback
      · obtain ⟨found, hfound⟩ := exists_nearestOnGrid? h (Nat.pow_pos (Nat.succ_pos 9)) hsteps hback
        simp [hgrid] at hfound

theorem le_of_ten_pow_dvd (hunits : units ≠ 0) {j steps : Nat} (hdvd : 10 ^ j ∣ steps)
    (hback : ReadsBack units steps) : j ≤ (stepsOfUnits units).log2 / 3 + 1 := by
  have hsteps : steps ≠ 0 := by
    rintro rfl
    apply hunits
    rw [← hback]
    exact roundUnits_eq_zero stepsPerUnit_pos
  have hpow : 2 ^ (3 * j) < 2 ^ ((stepsOfUnits units).log2 + 2) :=
    calc 2 ^ (3 * j) = 8 ^ j := Nat.pow_mul 2 3 j
      _ ≤ 10 ^ j := Nat.pow_le_pow_left (by decide) j
      _ ≤ steps := Nat.le_of_dvd (Nat.pos_of_ne_zero hsteps) hdvd
      _ < 2 * stepsOfUnits units := lt_two_mul_of_roundUnits stepsPerUnit_pos hunits hback
      _ ≤ 2 * 2 ^ ((stepsOfUnits units).log2 + 1) := Nat.mul_le_mul_left _ (Nat.le_of_lt Nat.lt_log2_self)
      _ = 2 ^ ((stepsOfUnits units).log2 + 2) := (Nat.pow_succ' ..).symm
  have hlt := (Nat.pow_lt_pow_iff_right Nat.one_lt_two).mp hpow
  omega

theorem exists_coarsest (h : Representable units) (hunits : units ≠ 0) :
    ∃ e, 10 ^ e ∣ shortestSteps units ∧ ∀ j steps, 10 ^ j ∣ steps → ReadsBack units steps → j ≤ e := by
  obtain ⟨e, -, hdvd, hfiner⟩ := exists_grid_shortestFrom h ((stepsOfUnits units).log2 / 3 + 1)
  refine ⟨e, hdvd, fun j steps hsteps hback => ?_⟩
  by_contra hlt
  exact hfiner j (Nat.lt_of_not_le hlt) (le_of_ten_pow_dvd hunits hsteps hback) steps hsteps hback

theorem shortestSteps_zero : shortestSteps 0 = 0 := by decide +kernel

theorem significantDigits_shortestSteps_le (h : Representable units) {m a b k : Nat} (hm : m < 10 ^ k)
    (hround : roundUnits (m * 10 ^ a) (10 ^ b * stepsPerUnit) = units) :
    significantDigits (shortestSteps units) ≤ k := by
  have hpow (n : Nat) : 0 < 10 ^ n := Nat.pow_pos (Nat.succ_pos 9)
  have hden : 0 < 10 ^ b * stepsPerUnit := Nat.mul_pos (hpow b) stepsPerUnit_pos
  by_cases hunits : units = 0
  · simp [hunits, shortestSteps_zero]
  obtain ⟨e, ⟨s, hs⟩, hcoarsest⟩ := exists_coarsest h hunits
  have hsteps : ReadsBack units (10 ^ e * s) := hs ▸ roundUnits_shortestSteps h
  refine significantDigits_le_iff.mpr ⟨s, e, by rw [hs, Nat.mul_comm], ?_⟩
  by_contra hlarge
  -- The decimal with fewer digits is on no coarser grid, so a power of ten lies between the two and reads back.
  have hgrid : a ≤ e + b := by
    by_contra hlt
    have hback : ReadsBack units (m * 10 ^ (a - b)) := by
      rw [← hround]
      apply roundUnits_congr stepsPerUnit_pos hden
      rw [show a = a - b + b by omega, Nat.pow_add, Nat.add_sub_cancel]
      ac_rfl
    have hle := hcoarsest (a - b) _ (Nat.dvd_mul_left ..) hback
    omega
  have hpower : ReadsBack units (10 ^ (k + e)) := by
    apply Nat.le_antisymm
    · apply le_of_le_of_eq (roundUnits_le_of_le stepsPerUnit_pos _) hsteps
      rw [Nat.pow_add, Nat.mul_comm]
      exact Nat.mul_le_mul_left _ (Nat.le_of_not_lt hlarge)
    · apply le_of_eq_of_le hround.symm
      apply roundUnits_mono hden stepsPerUnit_pos
      rw [← Nat.mul_assoc]
      apply Nat.mul_le_mul_right
      calc m * 10 ^ a ≤ 10 ^ k * 10 ^ (e + b) :=
            Nat.mul_le_mul (Nat.le_of_lt hm) (Nat.pow_le_pow_right (Nat.succ_pos 9) hgrid)
        _ = 10 ^ (k + e) * 10 ^ b := by rw [Nat.pow_add, Nat.pow_add, Nat.mul_assoc]
  have hk : k = 0 := by
    have hle := hcoarsest (k + e) _ (Nat.dvd_refl _) hpower
    omega
  obtain rfl : m = 0 := by simpa [hk] using hm
  apply hunits
  rw [← hround, Nat.zero_mul]
  exact roundUnits_eq_zero hden

end Grid

theorem roundUnits_of_ofDecimal {negative : Bool} {digits : Nat} {exponent : Int} {x : Finite}
    (h : ofDecimal negative digits exponent = .finite x) :
    roundUnits (digits * 10 ^ (exponent.toNat + unitExponent)) (10 ^ (-exponent).toNat * stepsPerUnit) = x.units := by
  have hpow : 0 < 10 ^ (-exponent).toNat := Nat.pow_pos (Nat.succ_pos 9)
  rw [ofDecimal_eq_round] at h
  rw [← units_of_round h]
  apply roundUnits_congr (Nat.mul_pos hpow stepsPerUnit_pos) hpow
  rw [Nat.pow_add, ← stepsPerOne, ← mul_stepsPerUnit]
  ac_rfl

theorem significantDigits_shortestSteps_le_of_ofDecimal {negative : Bool} {digits : Nat} {exponent : Int}
    {x : Finite} (h : ofDecimal negative digits exponent = .finite x) :
    significantDigits (shortestSteps x.units) ≤ significantDigits digits := by
  obtain ⟨m, j, hdigits, hm⟩ := significantDigits_le_iff.mp (le_refl (significantDigits digits))
  have hround := roundUnits_of_ofDecimal h
  rw [hdigits, Nat.mul_assoc, ← Nat.pow_add] at hround
  exact significantDigits_shortestSteps_le x.representable hm hround

end AttributeCodec.Binary64
