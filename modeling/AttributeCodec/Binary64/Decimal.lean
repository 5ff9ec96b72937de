import AttributeCodec.Binary64.Basic

/-! Every finite value is a whole number of steps of `10 ^ -1074`. The shortest decimal is the nearest one on the
coarsest power-of-ten grid that has one that reads back. -/

namespace AttributeCodec.Binary64

attribute [local instance (high)] instPowNat

/-- Exponents so large or so small that the digits no longer matter are not raised to. -/
def ofDecimal (negative : Bool) (digits : Nat) (exponent : Int) : Binary64 :=
  if digits = 0 then .finite ⟨negative, 0, representable_zero⟩
  else if 310 ≤ exponent then .infinite negative
  else if digits.log2 + 1076 ≤ 3 * -exponent then .finite ⟨negative, 0, representable_zero⟩
  else
    round negative (digits * 10 ^ exponent.toNat * unitsPerOne) (10 ^ (-exponent).toNat)
      (Nat.pow_pos (Nat.succ_pos 9))

def stepsPerUnit : Nat := 5 ^ unitExponent

def stepsPerOne : Nat := 10 ^ unitExponent

def stepsOfUnits (units : Nat) : Nat := units * stepsPerUnit

def ReadsBack (units steps : Nat) : Prop := roundUnits steps stepsPerUnit = units

instance (units steps : Nat) : Decidable (ReadsBack units steps) := inferInstanceAs (Decidable (_ = _))

/-- Of the two multiples of `grid` around the value the one that reads back; of two the nearer, and
the greater when both are as near. -/
def nearestOnGrid? (units grid : Nat) : Option Nat :=
  let exact := stepsOfUnits units
  let below := exact / grid * grid
  let above := below + grid
  if ReadsBack units below ∧ (¬ReadsBack units above ∨ exact - below < above - exact) then some below
  else if ReadsBack units above then some above
  else none

def shortestFrom (units : Nat) : Nat → Nat
  | 0 => stepsOfUnits units
  | e + 1 => (nearestOnGrid? units (10 ^ (e + 1))).getD (shortestFrom units e)

def shortestSteps (units : Nat) : Nat :=
  shortestFrom units ((stepsOfUnits units).log2 / 3 + 1)

end AttributeCodec.Binary64
