import AttributeCodec.Proofs.Binary64.Rounding

namespace AttributeCodec.Binary64

attribute [local instance (high)] instPowNat

theorem stepsPerUnit_pos : 0 < stepsPerUnit := Nat.pow_pos (Nat.succ_pos 4)

theorem readsBack_stepsOfUnits {units : Nat} (h : Representable units) :
    ReadsBack units (stepsOfUnits units) :=
  roundUnits_mul_of_representable h stepsPerUnit_pos

theorem readsBack_of_nearestOnGrid? {units grid steps : Nat} (h : nearestOnGrid? units grid = some steps) :
    ReadsBack units steps := by
  simp only [nearestOnGrid?] at h
  split at h
  · next hbelow =>
    cases h
    exact hbelow.1
  · split at h
    · next habove =>
      cases h
      exact habove
    · simp at h

theorem readsBack_shortestFrom {units : Nat} (h : Representable units) (e : Nat) :
    ReadsBack units (shortestFrom units e) := by
  induction e with
  | zero => exact readsBack_stepsOfUnits h
  | succ e ih =>
    rw [shortestFrom]
    cases hgrid : nearestOnGrid? units (10 ^ (e + 1)) with
    | none => exact ih
    | some steps => exact readsBack_of_nearestOnGrid? hgrid

theorem roundUnits_shortestSteps {units : Nat} (h : Representable units) :
    roundUnits (shortestSteps units) stepsPerUnit = units :=
  readsBack_shortestFrom h _

theorem mul_stepsPerUnit : unitsPerOne * stepsPerUnit = stepsPerOne := by decide +kernel

theorem ofDecimal_eq_finite {negative : Bool} {digits count steps : Nat} {x : Finite}
    (hsteps : digits * stepsPerOne = steps * 10 ^ count) (hback : roundUnits steps stepsPerUnit = x.units) :
    ofDecimal negative digits (-count) = .finite ⟨negative, x.units, x.representable⟩ := by
  have hexp : (-(-(count : Int))).toNat = count := by omega
  have hzero : (-(count : Int)).toNat = 0 := by omega
  have hpow : 0 < 10 ^ count := Nat.pow_pos (Nat.succ_pos 9)
  rw [ofDecimal_eq_round]
  refine round_eq_finite ?_ x.representable
  rw [hexp, hzero, Nat.pow_zero, Nat.mul_one, ← hback]
  refine roundUnits_congr hpow stepsPerUnit_pos ?_
  rw [Nat.mul_assoc, mul_stepsPerUnit, hsteps]

end AttributeCodec.Binary64
