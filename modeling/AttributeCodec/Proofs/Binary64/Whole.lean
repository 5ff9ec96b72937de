import AttributeCodec.Proofs.Binary64.Rounding

namespace AttributeCodec.Binary64

attribute [local instance (high)] instPowNat

def unsignedZero : Binary64 → Binary64
  | .finite x => if x.units = 0 then zero else .finite x
  | x => x

theorem unsignedZero_of_zero {x : Finite} (h : x.units = 0) : unsignedZero (.finite x) = zero := if_pos h

theorem unsignedZero_of_ne {x : Finite} (h : x.units ≠ 0) : unsignedZero (.finite x) = .finite x :=
  if_neg h

theorem unsignedZero_zero : unsignedZero zero = zero := unsignedZero_of_zero rfl

def Holds (i : Int) : Prop := ∃ x : Binary64, x.toInt? = some i

theorem unitsPerOne_pos : 0 < unitsPerOne := Nat.two_pow_pos _

theorem mul_unitsPerOne_eq_zero {m : Nat} : m * unitsPerOne = 0 ↔ m = 0 := by
  rw [Nat.mul_eq_zero, or_iff_left (Nat.ne_of_gt unitsPerOne_pos)]

theorem toInt?_finite_eq_some {x : Finite} {i : Int} (h : toInt? (.finite x) = some i) :
    x.units = i.natAbs * unitsPerOne ∧ (if x.negative then i ≤ 0 else 0 ≤ i) := by
  simp only [toInt?] at h
  split at h
  · next hdvd =>
    simp only [Option.some.injEq] at h
    have hunits : x.units / unitsPerOne * unitsPerOne = x.units := Nat.div_mul_cancel hdvd
    generalize x.units / unitsPerOne = m at h hunits
    cases hneg : x.negative <;> simp only [hneg, Bool.false_eq_true, if_true, if_false] at h ⊢
    · rw [show i.natAbs = m by omega]
      exact ⟨hunits.symm, by omega⟩
    · rw [show i.natAbs = m by omega]
      exact ⟨hunits.symm, by omega⟩
  · simp at h

theorem ofInt_eq_finite {i : Int} (h : Representable (i.natAbs * unitsPerOne)) :
    ofInt i = .finite ⟨i < 0, i.natAbs * unitsPerOne, h⟩ :=
  round_eq_finite (roundUnits_of_representable h) h

theorem finite_congr {x y : Finite} (hnegative : x.negative = y.negative) (hunits : x.units = y.units) :
    Binary64.finite x = .finite y := by
  obtain ⟨negative, units, hrep⟩ := x
  obtain ⟨negative', units', hrep'⟩ := y
  obtain rfl : negative = negative' := hnegative
  obtain rfl : units = units' := hunits
  rfl

theorem exists_unsignedZero_finite (x : Finite) : ∃ z, unsignedZero (.finite x) = .finite z := by
  by_cases hx : x.units = 0
  · exact ⟨_, unsignedZero_of_zero hx⟩
  · exact ⟨_, unsignedZero_of_ne hx⟩

theorem unsignedZero_finite_eq_iff {x y : Finite} :
    unsignedZero (.finite x) = unsignedZero (.finite y) ↔ numEq (.finite x) (.finite y) = true := by
  by_cases hx : x.units = 0
  · by_cases hy : y.units = 0
    · simp [unsignedZero_of_zero hx, unsignedZero_of_zero hy, numEq, hx, hy]
    · have hne : zero ≠ .finite y := by
        rintro ⟨⟩
        exact hy rfl
      simp [unsignedZero_of_zero hx, unsignedZero_of_ne hy, numEq, hx, Ne.symm hy, hne]
  · by_cases hy : y.units = 0
    · have hne : .finite x ≠ zero := by
        rintro ⟨⟩
        exact hx rfl
      simp [unsignedZero_of_ne hx, unsignedZero_of_zero hy, numEq, hx, hy, hne]
    · rw [unsignedZero_of_ne hx, unsignedZero_of_ne hy]
      simp only [numEq, Bool.and_eq_true, beq_iff_eq, Bool.or_eq_true, hx, false_or]
      constructor
      · rintro ⟨⟩
        exact ⟨rfl, rfl⟩
      · rintro ⟨hunits, hnegative⟩
        exact finite_congr hnegative hunits

theorem unsignedZero_eq_iff {x y : Binary64} :
    unsignedZero x = unsignedZero y ↔ x.numEq y = true ∨ (x = .nan ∧ y = .nan) := by
  cases x with
  | finite x =>
    cases y with
    | finite y => simpa using unsignedZero_finite_eq_iff
    | _ =>
      obtain ⟨z, hz⟩ := exists_unsignedZero_finite x
      rw [hz]
      simp [unsignedZero, numEq]
  | _ =>
    cases y with
    | finite y =>
      obtain ⟨z, hz⟩ := exists_unsignedZero_finite y
      rw [hz]
      simp [unsignedZero, numEq]
    | _ => simp [unsignedZero, numEq]

theorem ofInt_of_toInt? {x : Binary64} {i : Int} (h : x.toInt? = some i) : ofInt i = x.unsignedZero := by
  cases x with
  | nan => simp [toInt?] at h
  | infinite => simp [toInt?] at h
  | finite x =>
    obtain ⟨hunits, hsign⟩ := toInt?_finite_eq_some h
    rw [ofInt_eq_finite (hunits ▸ x.representable)]
    by_cases hzero : x.units = 0
    · rw [unsignedZero_of_zero hzero]
      have hi : i = 0 := Int.natAbs_eq_zero.mp (mul_unitsPerOne_eq_zero.mp (hunits ▸ hzero))
      exact finite_congr (decide_eq_false (by omega)) (hunits.symm.trans hzero)
    · rw [unsignedZero_of_ne hzero]
      have hi : i ≠ 0 := fun hi => hzero (by rw [hunits, hi, Int.natAbs_zero, Nat.zero_mul])
      refine finite_congr ?_ hunits.symm
      cases hnegative : x.negative <;> simp [hnegative] at hsign ⊢ <;> omega

theorem toInt?_of_zero {x : Finite} (h : x.units = 0) : toInt? (.finite x) = some 0 := by
  simp [toInt?, h]

theorem holds_zero : Holds 0 := ⟨zero, toInt?_of_zero rfl⟩

theorem toInt?_unsignedZero (x : Binary64) : x.unsignedZero.toInt? = x.toInt? := by
  cases x with
  | nan => rfl
  | infinite => rfl
  | finite x =>
    by_cases hzero : x.units = 0
    · rw [unsignedZero_of_zero hzero, toInt?_of_zero hzero]
      exact toInt?_of_zero rfl
    · rw [unsignedZero_of_ne hzero]

theorem toInt?_ofInt {i : Int} (h : Holds i) : (ofInt i).toInt? = some i := by
  obtain ⟨x, hx⟩ := h
  rw [ofInt_of_toInt? hx, toInt?_unsignedZero, hx]

end AttributeCodec.Binary64
