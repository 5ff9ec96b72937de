import AttributeCodec.Proofs.Binary64.Shortest
import AttributeCodec.Proofs.Number.Narrow
import AttributeCodec.Proofs.Numeral.Text

namespace AttributeCodec.Number

open Binary64 (ofInt)

attribute [local instance (high)] instPowNat
attribute [local irreducible] Binary64.unitExponent Binary64.limitExponent

theorem read_of_finite {text : String} {negative : Bool} {digits : Nat} {exponent : Int}
    {x : Binary64.Finite}
    (hchars : Numeral.ofChars? text.toList = some (.decimal negative digits exponent))
    (hround : Binary64.ofDecimal negative digits exponent = .finite x) :
    read text = .ok (ofBinary64 (.finite x)) := by
  simp [read, hchars, Numeral.overflows, Numeral.toBinary64, hround]

theorem read_text_finite (x : Binary64.Finite) :
    read (Binary64.finite x).text = .ok (ofBinary64 (.finite x)) := by
  refine read_of_finite (x := x) ?_ (Binary64.ofDecimal_eq_finite (Numeral.ofDigits_fixedPoint _)
    (Binary64.roundUnits_shortestSteps x.representable))
  rw [Binary64.text, String.toList_ofList, Numeral.ofChars?_ofFinite]

theorem read_text_binary64 (x : Binary64) : read x.text = .ok (ofBinary64 x) := by
  cases x with
  | nan => rfl
  | infinite negative => cases negative <;> rfl
  | finite x => exact read_text_finite x

theorem ofDecimal_zero (negative : Bool) (n : Nat) :
    Binary64.ofDecimal negative n 0 = .round negative (n * Binary64.unitsPerOne) 1 Nat.one_pos := by
  rw [Binary64.ofDecimal_eq_round]
  refine Binary64.round_congr _ _ ?_
  rw [Int.toNat_zero, Int.neg_zero, Int.toNat_zero, Nat.pow_zero, Nat.mul_one n]

theorem read_digits {text : String} (negative : Bool) {n : Nat}
    (htext : text.toList = (if negative then ['-'] else []) ++ Nat.toDigits 10 n)
    (hn : n < 18446744073709551616) :
    read text = .ok (ofBinary64 (.round negative (n * Binary64.unitsPerOne) 1 Nat.one_pos)) := by
  have hlt : n * Binary64.unitsPerOne < 2 ^ (64 + Binary64.unitExponent) * 1 := by
    rw [Nat.mul_one, Nat.pow_add]
    exact Nat.mul_lt_mul_of_pos_right hn Binary64.unitsPerOne_pos
  obtain ⟨x, hx⟩ := Binary64.round_eq_finite_of_lt negative Nat.one_pos hlt
    (by decide +kernel) (by decide +kernel)
  rw [hx]
  exact read_of_finite (htext ▸ Numeral.ofChars?_toDigits negative n) ((ofDecimal_zero ..).trans hx)

theorem read_toString {i : Int} (h : i.natAbs < 18446744073709551616) :
    read (toString i) = .ok (ofBinary64 (ofInt i)) := by
  cases i with
  | ofNat m =>
    have htext : (toString (Int.ofNat m)).toList = Nat.toDigits 10 m := Nat.toList_repr
    exact read_digits false htext h
  | negSucc m =>
    have htext : (toString (Int.negSucc m)).toList = '-' :: Nat.toDigits 10 (m + 1) := by
      rw [Int.toString_eq_repr, Int.repr_eq_if, if_neg (by omega), String.toList_append, Nat.toList_repr]
      rfl
    rw [read_digits true htext h, ofInt, decide_eq_true (Int.negSucc_lt_zero m)]
    rfl

theorem read_text (n : Number) : read n.text = .ok (ofBinary64 n.toBinary64) := by
  cases n with
  | int i =>
    have hmin := i.le_toInt
    have hmax := i.toInt_lt
    exact read_toString (by omega)
  | uint u => exact read_toString (i := u.toNat) u.toNat_lt
  | float x => exact read_text_binary64 x

end AttributeCodec.Number
