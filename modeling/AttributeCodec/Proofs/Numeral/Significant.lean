import Mathlib.Data.Nat.Digits.Lemmas

namespace AttributeCodec.Numeral

def significantDigits (n : ℕ) : ℕ := ((Nat.digits 10 n).dropWhile (· = 0)).length

@[simp]
theorem significantDigits_zero : significantDigits 0 = 0 := rfl

theorem significantDigits_mul_ten_pow (n j : ℕ) : significantDigits (n * 10 ^ j) = significantDigits n := by
  rcases Nat.eq_zero_or_pos n with rfl | hpos
  · simp
  · have hdigits : Nat.digits 10 (n * 10 ^ j) = List.replicate j 0 ++ Nat.digits 10 n := by
      rw [Nat.mul_comm, Nat.digits_base_pow_mul (by decide) hpos]
    have hzeros : ∀ d ∈ List.replicate j 0, decide (d = 0) = true := by simp
    rw [significantDigits, hdigits, List.dropWhile_append_of_pos hzeros, significantDigits]

theorem significantDigits_eq_of_mul_eq {m n i j : ℕ} (h : m * 10 ^ i = n * 10 ^ j) :
    significantDigits m = significantDigits n := by
  rw [← significantDigits_mul_ten_pow m i, h, significantDigits_mul_ten_pow]

theorem exists_zeros_append (digits : List ℕ) :
    ∃ j, digits = List.replicate j 0 ++ digits.dropWhile (· = 0) := by
  induction digits with
  | nil => exact ⟨0, rfl⟩
  | cons d digits ih =>
    by_cases hd : d = 0
    · obtain ⟨j, hj⟩ := ih
      exact ⟨j + 1, by simp [hd, List.replicate_succ, ← hj]⟩
    · exact ⟨0, by simp [hd]⟩

theorem significantDigits_le_iff {n k : ℕ} : significantDigits n ≤ k ↔ ∃ m j, n = m * 10 ^ j ∧ m < 10 ^ k := by
  constructor
  · intro h
    obtain ⟨j, hj⟩ := exists_zeros_append (Nat.digits 10 n)
    have hlt : ∀ d ∈ (Nat.digits 10 n).dropWhile (· = 0), d < 10 := fun d hd =>
      Nat.digits_lt_base (by decide) ((List.dropWhile_sublist _).subset hd)
    refine ⟨Nat.ofDigits 10 ((Nat.digits 10 n).dropWhile (· = 0)), j, ?_, ?_⟩
    · have hn := congrArg (Nat.ofDigits 10) hj
      rw [Nat.ofDigits_digits, Nat.ofDigits_append, Nat.ofDigits_replicate_zero, List.length_replicate, Nat.zero_add,
        Nat.mul_comm] at hn
      exact hn
    · exact (Nat.ofDigits_lt_base_pow_length (by decide) hlt).trans_le (Nat.pow_le_pow_right (by decide) h)
  · rintro ⟨m, j, rfl, hm⟩
    rw [significantDigits_mul_ten_pow]
    exact (List.dropWhile_sublist _).length_le.trans ((Nat.digits_length_le_iff (by decide) m).mpr hm)

end AttributeCodec.Numeral
