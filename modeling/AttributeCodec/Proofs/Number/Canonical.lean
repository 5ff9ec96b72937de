import AttributeCodec.Proofs.Binary64.Bits
import AttributeCodec.Proofs.Binary64.Coarsest
import AttributeCodec.Proofs.Number.Text
import AttributeCodec.Proofs.Numeral.Positional
import AttributeCodec.Proofs.Numeral.Spelled

namespace AttributeCodec

attribute [local instance (high)] instPowNat
attribute [local irreducible] Binary64.unitExponent Binary64.limitExponent

namespace Numeral

structure Shortest (x : Binary64.Finite) (text : List Char) (digits : Nat) (exponent : Int) : Prop where
  positional : Positional x.negative text
  spelled : Spelled text (.decimal x.negative digits exponent)
  rounds : (decimal x.negative digits exponent).toBinary64 = .finite x
  least : ∀ negative others power, (decimal negative others power).toBinary64 = .finite x →
    significantDigits digits ≤ significantDigits others

theorem significantDigits_fixedPoint (steps : Nat) :
    significantDigits (ofDigits (wholeDigits steps ++ placeDigits steps)) = significantDigits steps :=
  significantDigits_eq_of_mul_eq (ofDigits_fixedPoint steps)

theorem shortest_ofFinite (x : Binary64.Finite) :
    ∃ digits exponent, Shortest x (ofFinite x) digits exponent := by
  refine ⟨_, _, positional_ofFinite x, ofChars?_eq_some_iff.mp (ofChars?_ofFinite x), ?_,
    fun negative others power h => ?_⟩
  · exact Binary64.ofDecimal_eq_finite (ofDigits_fixedPoint _) (Binary64.roundUnits_shortestSteps x.representable)
  · rw [significantDigits_fixedPoint]
    exact Binary64.significantDigits_shortestSteps_le_of_ofDecimal h

end Numeral

namespace Binary64

theorem exists_spelled_text (x : Binary64) :
    ∃ numeral : Numeral, numeral.Spelled x.text.toList ∧ numeral.toBinary64 = x := by
  cases x with
  | nan => exact ⟨.nan, Numeral.ofChars?_eq_some_iff.mp rfl, rfl⟩
  | infinite negative =>
    refine ⟨.infinite negative, Numeral.ofChars?_eq_some_iff.mp ?_, rfl⟩
    cases negative <;> rfl
  | finite x =>
    obtain ⟨digits, exponent, h⟩ := Numeral.shortest_ofFinite x
    refine ⟨_, ?_, h.rounds⟩
    rw [text, String.toList_ofList]
    exact h.spelled

theorem text_injective : Function.Injective text := by
  intro x y h
  obtain ⟨numeral, hspelled, hx⟩ := exists_spelled_text x
  obtain ⟨other, hother, hy⟩ := exists_spelled_text y
  rw [← h] at hother
  rw [← hx, ← hy, hspelled.unique hother]

theorem text_canonical :
    (∀ x : Binary64, Number.read x.text = .ok (Number.ofBinary64 x)) ∧
      Number.read nan.text = .ok (.float nan) ∧
      (∀ negative, Number.read (infinite negative).text = .ok (.float (infinite negative))) ∧
      (∀ x : Finite, ∃ digits exponent, Numeral.Shortest x (finite x).text.toList digits exponent) ∧
      Function.Injective text ∧
      ∀ bits others : UInt64, ofBits bits ≠ nan → (ofBits bits).text = (ofBits others).text → bits = others := by
  refine ⟨Number.read_text_binary64, Number.read_text_binary64 nan, fun negative => Number.read_text_binary64 _,
    fun x => ?_, text_injective, fun bits others hbits htext => ?_⟩
  · rw [text, String.toList_ofList]
    exact Numeral.shortest_ofFinite x
  · have hvalue := text_injective htext
    have hothers : ofBits others ≠ nan := hvalue ▸ hbits
    rw [← toBits_ofBits hbits, hvalue, toBits_ofBits hothers]

theorem text_canonical_zeros :
    ofBits 0x8000000000000000 ≠ nan ∧ (ofBits 0x8000000000000000).text ≠ (ofBits 0).text := by
  have hnan : ofBits 0x8000000000000000 ≠ nan := by decide +kernel
  obtain ⟨-, -, -, -, -, hbits⟩ := text_canonical
  exact ⟨hnan, fun htext => absurd (hbits _ _ hnan htext) (by decide)⟩

end Binary64

end AttributeCodec
