import AttributeCodec.Proofs.Binary64.Nearest
import AttributeCodec.Proofs.Number.Text
import AttributeCodec.Proofs.Numeral.Spelled
import Mathlib.Algebra.Order.Field.Power

/-! A decimal is read as the value nearest to it and refused from halfway between the greatest value and the
limit on. -/

namespace AttributeCodec

attribute [local instance (high)] instPowNat
attribute [local irreducible] Binary64.unitExponent Binary64.limitExponent

namespace Binary64

theorem ofDecimal_quotient (digits : Nat) (exponent : Int) :
    ((digits * 10 ^ exponent.toNat * unitsPerOne : ℕ) : ℚ) / (10 ^ (-exponent).toNat : ℕ) / unitsPerOne =
      digits * 10 ^ exponent := by
  have hunits := unitsPerOne_pos_rat.ne'
  obtain ⟨n, rfl | rfl⟩ := exponent.eq_nat_or_neg
  · rw [Int.toNat_natCast, Int.toNat_neg_natCast, Nat.pow_zero, Nat.cast_one, div_one, Nat.cast_mul,
      mul_div_cancel_right₀ _ hunits, Nat.cast_mul, Nat.cast_pow, zpow_natCast]
    rfl
  · rw [neg_neg, Int.toNat_natCast, Int.toNat_neg_natCast, Nat.pow_zero, Nat.mul_one, Nat.cast_mul,
      div_right_comm, mul_div_cancel_right₀ _ hunits, zpow_neg, zpow_natCast, Nat.cast_pow]
    rfl

theorem ofDecimal_eq_infinite_iff {negative : Bool} {digits : Nat} {exponent : Int} :
    ofDecimal negative digits exponent = .infinite negative ↔
      overflowLimit ≤ (digits : ℚ) * 10 ^ exponent := by
  rw [ofDecimal_eq_round, round_eq_infinite_iff, ofDecimal_quotient]

theorem exists_ofDecimal_eq_finite {negative : Bool} {digits : Nat} {exponent : Int}
    (h : (digits : ℚ) * 10 ^ exponent < overflowLimit) :
    ∃ x : Finite, ofDecimal negative digits exponent = .finite x ∧
      x.IsNearest (signed negative (digits * 10 ^ exponent)) := by
  rw [← ofDecimal_quotient] at h
  obtain ⟨x, hx⟩ := exists_round_eq_finite_iff.mpr h
  refine ⟨x, (ofDecimal_eq_round ..).trans hx, ?_⟩
  rw [← ofDecimal_quotient]
  exact isNearest_of_round hx

end Binary64

namespace Numeral

def value? : Numeral → Option ℚ
  | decimal negative digits exponent => some (signed negative (digits * 10 ^ exponent))
  | _ => none

def InRange (numeral : Numeral) : Prop := ∀ q, numeral.value? = some q → |q| < Binary64.overflowLimit

inductive RoundsTo : Numeral → Binary64 → Prop
  | nan : RoundsTo nan .nan
  | infinite {negative : Bool} : RoundsTo (infinite negative) (.infinite negative)
  | decimal {negative : Bool} {digits : Nat} {exponent : Int} {x : Binary64.Finite}
      (hnearest : x.IsNearest (signed negative (digits * 10 ^ exponent))) :
      RoundsTo (decimal negative digits exponent) (.finite x)

theorem inRange_decimal {negative : Bool} {digits : Nat} {exponent : Int} :
    (decimal negative digits exponent).InRange ↔ (digits : ℚ) * 10 ^ exponent < Binary64.overflowLimit := by
  have hnonneg : (0 : ℚ) ≤ digits * 10 ^ exponent :=
    mul_nonneg (Nat.cast_nonneg _) (zpow_nonneg (by decide) _)
  simp only [InRange, value?, Option.some_inj, forall_eq', abs_signed, abs_of_nonneg hnonneg]

theorem inRange_nan : nan.InRange := by
  rintro q ⟨⟩

theorem inRange_infinite {negative : Bool} : (infinite negative).InRange := by
  rintro q ⟨⟩

theorem overflows_eq_false_iff {numeral : Numeral} : numeral.overflows = false ↔ numeral.InRange := by
  cases numeral with
  | nan => exact iff_of_true rfl inRange_nan
  | infinite => exact iff_of_true rfl inRange_infinite
  | decimal negative digits exponent =>
    rw [inRange_decimal, overflows, decide_eq_false_iff_not, Binary64.ofDecimal_eq_infinite_iff, not_le]

theorem roundsTo_toBinary64 {numeral : Numeral} (h : numeral.InRange) : numeral.RoundsTo numeral.toBinary64 := by
  cases numeral with
  | nan => exact .nan
  | infinite => exact .infinite
  | decimal negative digits exponent =>
    obtain ⟨x, hx, hnearest⟩ := Binary64.exists_ofDecimal_eq_finite (inRange_decimal.mp h)
    rw [toBinary64, hx]
    exact .decimal hnearest

theorem RoundsTo.unsignedZero_eq {numeral : Numeral} {x y : Binary64} (hx : numeral.RoundsTo x)
    (hy : numeral.RoundsTo y) : x.unsignedZero = y.unsignedZero := by
  cases hx with
  | nan =>
    cases hy
    rfl
  | infinite =>
    cases hy
    rfl
  | decimal hx =>
    cases hy with
    | decimal hy => exact Binary64.Finite.toRat_eq_iff.mp (hx.toRat_eq hy)

end Numeral

namespace Number

open Numeral (Spelled)

theorem read_eq_ok_iff {text : String} {n : Number} :
    read text = .ok n ↔
      ∃ numeral : Numeral, Spelled text.toList numeral ∧ numeral.InRange ∧ ofBinary64 numeral.toBinary64 = n := by
  simp only [← Numeral.ofChars?_eq_some_iff, ← Numeral.overflows_eq_false_iff]
  unfold read
  cases Numeral.ofChars? text.toList with
  | none => simp
  | some numeral => cases hoverflows : numeral.overflows <;> simp [hoverflows]

theorem fault_of_read {text : String} {fault : Fault} (h : read text = .error fault) :
    fault = .invalidNumber text := by
  unfold read at h
  split at h
  · split at h
    · cases h
      rfl
    · cases h
  · cases h
    rfl

def Acceptable (text : String) : Prop := ∃ numeral : Numeral, Spelled text.toList numeral ∧ numeral.InRange

theorem exists_read_eq_ok_iff {text : String} : (∃ n, read text = .ok n) ↔ Acceptable text := by
  simp only [read_eq_ok_iff]
  constructor
  · rintro ⟨n, numeral, hspelled, hrange, -⟩
    exact ⟨numeral, hspelled, hrange⟩
  · rintro ⟨numeral, hspelled, hrange⟩
    exact ⟨_, numeral, hspelled, hrange, rfl⟩

theorem read_of_not_acceptable {text : String} (h : ¬Acceptable text) : read text = .error (.invalidNumber text) := by
  cases hread : read text with
  | ok n => exact absurd (exists_read_eq_ok_iff.mp ⟨n, hread⟩) h
  | error fault => rw [fault_of_read hread]

theorem read_eq_ofBinary64 {text : String} {numeral : Numeral} {n : Number}
    (hspelled : Spelled text.toList numeral) (hread : read text = .ok n) :
    n = ofBinary64 numeral.toBinary64 ∧ numeral.InRange := by
  obtain ⟨numeral', hspelled', hrange, rfl⟩ := read_eq_ok_iff.mp hread
  rw [hspelled.unique hspelled']
  exact ⟨rfl, hrange⟩

theorem eq_ofBinary64_of_roundsTo {text : String} {numeral : Numeral} {n : Number} {x : Binary64}
    (hspelled : Spelled text.toList numeral) (hread : read text = .ok n) (hround : numeral.RoundsTo x) :
    n = ofBinary64 x := by
  obtain ⟨rfl, hrange⟩ := read_eq_ofBinary64 hspelled hread
  rw [← ofBinary64_unsignedZero, (Numeral.roundsTo_toBinary64 hrange).unsignedZero_eq hround,
    ofBinary64_unsignedZero]

theorem read_eq_infinite_iff {text : String} {negative : Bool} :
    read text = .ok (.float (.infinite negative)) ↔ Spelled text.toList (.infinite negative) := by
  rw [read_eq_ok_iff]
  constructor
  · rintro ⟨numeral, hspelled, hrange, hinfinite⟩
    have hround := Numeral.roundsTo_toBinary64 hrange
    rw [← eq_of_ofBinary64_float hinfinite] at hround
    cases hround
    exact hspelled
  · exact fun hspelled => ⟨_, hspelled, Numeral.inRange_infinite, rfl⟩

theorem read_decides (text : String) :
    ((∃ n, read text = .ok n) ↔ Acceptable text) ∧
      (¬Acceptable text → read text = .error (.invalidNumber text)) ∧
      (∀ numeral n, Spelled text.toList numeral → read text = .ok n →
        ∃ x, numeral.RoundsTo x ∧ n = ofBinary64 x) ∧
      ∀ negative, read text = .ok (.float (.infinite negative)) ↔ Spelled text.toList (.infinite negative) := by
  refine ⟨exists_read_eq_ok_iff, read_of_not_acceptable, ?_, fun _ => read_eq_infinite_iff⟩
  intro numeral n hspelled hread
  obtain ⟨hn, hrange⟩ := read_eq_ofBinary64 hspelled hread
  exact ⟨_, Numeral.roundsTo_toBinary64 hrange, hn⟩

def greatest : Binary64.Finite := ⟨false, (2 ^ 53 - 1) * 2 ^ 2045, by decide +kernel⟩

example : read "1.797693134862315807e308" = .ok (.float (.finite greatest)) := by decide +kernel

example : read "1.797693134862315808e308" = .error (.invalidNumber "1.797693134862315808e308") := by
  decide +kernel

end Number

end AttributeCodec
