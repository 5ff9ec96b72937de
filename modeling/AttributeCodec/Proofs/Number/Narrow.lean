import AttributeCodec.Number
import AttributeCodec.Proofs.Binary64.Whole

namespace AttributeCodec

namespace Binary64

theorem unsignedZero_of_toInt? {x : Binary64} (h : x.toInt? ≠ some 0) : x.unsignedZero = x := by
  cases x with
  | finite x => exact unsignedZero_of_ne fun hzero => h (toInt?_of_zero hzero)
  | _ => rfl

end Binary64

namespace Number

open Binary64 (ofInt toInt? Holds)

theorem ofBinary64_of_none {x : Binary64} (h : x.toInt? = none) : ofBinary64 x = .float x := by
  simp only [ofBinary64, h]

theorem ofBinary64_of_int {x : Binary64} {i : Int} (h : x.toInt? = some i)
    (hmin : -9223372036854775808 ≤ i) (hmax : i < 9223372036854775808) :
    ofBinary64 x = .int (.ofInt i) := by
  simp only [ofBinary64, h]
  exact if_pos ⟨hmin, Int.le_of_lt_add_one hmax⟩

theorem ofBinary64_of_uint {x : Binary64} {i : Int} (h : x.toInt? = some i)
    (hmin : 9223372036854775808 ≤ i) (hmax : i < 18446744073709551616) :
    ofBinary64 x = .uint (.ofNat i.toNat) := by
  simp only [ofBinary64, h]
  rw [if_neg, if_pos]
  · exact ⟨by omega, hmax⟩
  · rintro ⟨-, hle⟩
    exact absurd (Int.lt_of_lt_of_le (Int.lt_add_one_of_le hle) hmin) (Int.lt_irrefl _)

theorem eq_of_ofBinary64_float {x y : Binary64} (h : ofBinary64 x = .float y) : y = x := by
  unfold ofBinary64 at h
  split at h
  · split at h
    · cases h
    · split at h <;> cases h
      rfl
  · cases h
    rfl

theorem ofBinary64_of_float {x : Binary64} {i : Int} (h : x.toInt? = some i)
    (hout : i < -9223372036854775808 ∨ 18446744073709551616 ≤ i) : ofBinary64 x = .float x := by
  simp only [ofBinary64, h]
  rw [if_neg, if_neg]
  · rintro ⟨hle, hlt⟩
    replace hlt : i < 18446744073709551616 := hlt
    omega
  · rintro ⟨hle, hlt⟩
    replace hle : -9223372036854775808 ≤ i := hle
    replace hlt : i ≤ 9223372036854775807 := hlt
    omega

theorem toInt?_of_ofBinary64_int {x : Binary64} {i : Int64} (h : ofBinary64 x = .int i) :
    x.toInt? = some i.toInt := by
  unfold ofBinary64 at h
  split at h
  · next j hx =>
    split at h
    · next hrange =>
      obtain ⟨⟩ := h
      rw [hx, Int64.toInt_ofInt_of_le hrange.1 (Int.lt_add_one_of_le hrange.2)]
    · split at h <;> cases h
  · cases h

theorem toInt?_of_ofBinary64_uint {x : Binary64} {u : UInt64} (h : ofBinary64 x = .uint u) :
    x.toInt? = some (u.toNat : Int) := by
  unfold ofBinary64 at h
  split at h
  · next j hx =>
    split at h
    · cases h
    · split at h
      · next hrange =>
        obtain ⟨⟩ := h
        rw [hx, UInt64.toNat_ofNat_of_lt' (by have := hrange.2; omega), Int.toNat_of_nonneg hrange.1]
      · cases h
  · cases h

theorem toBinary64_ofBinary64 (x : Binary64) : (ofBinary64 x).toBinary64 = x.unsignedZero := by
  cases hx : x.toInt? with
  | none => rw [ofBinary64_of_none hx, toBinary64, Binary64.unsignedZero_of_toInt? (by simp [hx])]
  | some i =>
    rw [← Binary64.ofInt_of_toInt? hx]
    by_cases hout : i < -9223372036854775808 ∨ 18446744073709551616 ≤ i
    · have hne : x.toInt? ≠ some 0 := by
        rw [hx]
        rintro ⟨⟩
        omega
      rw [ofBinary64_of_float hx hout, toBinary64, Binary64.ofInt_of_toInt? hx,
        Binary64.unsignedZero_of_toInt? hne]
    · by_cases hint : i < 9223372036854775808
      · rw [ofBinary64_of_int hx (by omega) hint, toBinary64, Int64.toInt_ofInt_of_le (by omega) hint]
      · have hnat : (UInt64.ofNat i.toNat).toNat = i.toNat :=
          UInt64.toNat_ofNat_of_lt' (show i.toNat < 18446744073709551616 by omega)
        rw [ofBinary64_of_uint hx (by omega) (by omega), toBinary64, hnat, Int.toNat_of_nonneg (by omega)]

theorem ofBinary64_unsignedZero (x : Binary64) : ofBinary64 x.unsignedZero = ofBinary64 x := by
  by_cases hx : x.toInt? = some 0
  · rw [ofBinary64_of_int hx (by decide) (by decide),
      ofBinary64_of_int ((Binary64.toInt?_unsignedZero x).trans hx) (by decide) (by decide)]
  · rw [Binary64.unsignedZero_of_toInt? hx]

theorem ofBinary64_toBinary64_ofBinary64 (x : Binary64) :
    ofBinary64 (ofBinary64 x).toBinary64 = ofBinary64 x := by
  rw [toBinary64_ofBinary64, ofBinary64_unsignedZero]

theorem ofBinary64_ofInt_toInt (i : Int64) (h : Holds i.toInt) : ofBinary64 (ofInt i.toInt) = .int i := by
  rw [ofBinary64_of_int (Binary64.toInt?_ofInt h) i.le_toInt i.toInt_lt, Int64.ofInt_toInt]

theorem toUInt64_ofBinary64_ofInt (u : UInt64) (h : Holds u.toNat) :
    (ofBinary64 (ofInt u.toNat)).toUInt64 = .ok u := by
  have hu := u.toNat_lt
  by_cases hint : (u.toNat : Int) < 9223372036854775808
  · rw [ofBinary64_of_int (Binary64.toInt?_ofInt h) (by omega) hint, toUInt64,
      Int64.toInt_ofInt_of_le (by omega) hint, if_pos (by omega)]
    rw [Int64.ofInt_eq_ofNat, Int64.toUInt64_ofNat', UInt64.ofNat_toNat]
  · rw [ofBinary64_of_uint (Binary64.toInt?_ofInt h) (by omega) (by omega), toUInt64, Int.toNat_natCast,
      UInt64.ofNat_toNat]

section Accessors

variable {x : Binary64}

theorem le_of_ofBinary64_uint {u : UInt64} (h : ofBinary64 x = .uint u) : 9223372036854775808 ≤ u.toNat := by
  refine Nat.le_of_not_lt fun hlt => ?_
  rw [ofBinary64_of_int (toInt?_of_ofBinary64_uint h) (by omega) (by omega)] at h
  cases h

theorem toInt?_of_toInt64 {i : Int64} (h : (ofBinary64 x).toInt64 = .ok i) : x.toInt? = some i.toInt := by
  cases hn : ofBinary64 x with
  | int j =>
    rw [hn] at h
    cases h
    exact toInt?_of_ofBinary64_int hn
  | uint u =>
    have hgreat := le_of_ofBinary64_uint hn
    rw [hn, toInt64] at h
    split at h
    · next hle =>
      replace hle : (u.toNat : Int) ≤ 9223372036854775807 := hle
      omega
    · cases h
  | float y =>
    rw [hn] at h
    cases h

theorem toInt64_of_toInt? {i : Int64} (h : x.toInt? = some i.toInt) : (ofBinary64 x).toInt64 = .ok i := by
  rw [ofBinary64_of_int h i.le_toInt i.toInt_lt, Int64.ofInt_toInt]
  rfl

theorem toInt?_of_toUInt64 {u : UInt64} (h : (ofBinary64 x).toUInt64 = .ok u) :
    x.toInt? = some (u.toNat : Int) := by
  cases hn : ofBinary64 x with
  | int i =>
    rw [hn, toUInt64] at h
    split at h
    · next hle =>
      cases h
      rw [toInt?_of_ofBinary64_int hn, Int64.toNat_toUInt64_of_le (Int64.le_iff_toInt_le.mpr hle)]
      exact congrArg some (Int.toNat_of_nonneg hle).symm
    · cases h
  | uint v =>
    rw [hn] at h
    cases h
    exact toInt?_of_ofBinary64_uint hn
  | float y =>
    rw [hn] at h
    cases h

theorem toUInt64_of_toInt? {u : UInt64} (h : x.toInt? = some (u.toNat : Int)) :
    (ofBinary64 x).toUInt64 = .ok u := by
  rw [← ofBinary64_unsignedZero, ← Binary64.ofInt_of_toInt? h]
  exact toUInt64_ofBinary64_ofInt u ⟨x, h⟩

end Accessors

end Number

end AttributeCodec
