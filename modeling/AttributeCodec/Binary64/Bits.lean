import AttributeCodec.Binary64.Basic

namespace AttributeCodec.Binary64

attribute [local instance (high)] instPowNat

def fractionBits : Nat := 52

def exponentBits : Nat := 11

def specialExponent : Nat := 2047

def unitsOfFields (exponent fraction : Nat) : Nat :=
  if exponent = 0 then fraction else (2 ^ fractionBits + fraction) * 2 ^ (exponent - 1)

theorem representable_unitsOfFields {exponent fraction : Nat} (he : exponent < specialExponent)
    (hf : fraction < 2 ^ fractionBits) : Representable (unitsOfFields exponent fraction) := by
  have hdouble : 2 ^ precision = 2 ^ fractionBits * 2 := Nat.pow_succ 2 fractionBits
  unfold unitsOfFields
  split
  · have hlt : fraction < 2 ^ precision := by omega
    simpa using representable_mul_two_pow hlt (e := 0) (by decide)
  · refine representable_mul_two_pow (by omega) ?_
    simp only [specialExponent, precision, limitExponent] at *
    omega

def ofBits (bits : UInt64) : Binary64 :=
  let negative := decide (2 ^ (fractionBits + exponentBits) ≤ bits.toNat)
  let exponent := bits.toNat / 2 ^ fractionBits % 2 ^ exponentBits
  let fraction := bits.toNat % 2 ^ fractionBits
  if h : exponent < specialExponent then
    .finite ⟨negative, unitsOfFields exponent fraction,
      representable_unitsOfFields h (Nat.mod_lt _ (Nat.two_pow_pos _))⟩
  else if fraction = 0 then .infinite negative
  else .nan

/-- Exponent field and fraction of a finite value, as one number: with an exponent above zero the
leading bit is left out, which adds one to the field. -/
def fieldsOfUnits (units : Nat) : Nat :=
  if units < 2 ^ fractionBits then units
  else
    let e := units.log2 - fractionBits
    e * 2 ^ fractionBits + units / 2 ^ e

def withSign (negative : Bool) (fields : Nat) : UInt64 :=
  .ofNat (if negative then 2 ^ (fractionBits + exponentBits) + fields else fields)

def toBits : Binary64 → UInt64
  | .nan => .ofNat (specialExponent * 2 ^ fractionBits + 2 ^ (fractionBits - 1))
  | .infinite negative => withSign negative (specialExponent * 2 ^ fractionBits)
  | .finite x => withSign x.negative (fieldsOfUnits x.units)

end AttributeCodec.Binary64
