import AttributeCodec.Proofs.Binary64.Integer
import AttributeCodec.Proofs.Codec.RoundTrip

/-! An integer comes back as the binary value nearest to it, and is refused at its own type from half a last bit
below the end of the range on. -/

namespace AttributeCodec

open Attribute (Form LawfulForm Members Tagged)
open Binary64 (Holds RoundsTo ofInt)

namespace Number

theorem natAbs_toInt_lt (i : Int64) : i.toInt.natAbs < 18446744073709551616 := by
  have hmin := i.le_toInt
  have hmax := i.toInt_lt
  omega

theorem natAbs_toNat_lt (u : UInt64) : (u.toNat : Int).natAbs < 18446744073709551616 := by
  rw [Int.natAbs_natCast]
  exact u.toNat_lt

theorem toInt64_narrowed_of_lt {i : Int64} (h : i.toInt < 2 ^ 63 - 512) :
    ∃ j : Int64, RoundsTo i.toInt j.toInt ∧ (int i).narrowed.toInt64 = .ok j := by
  obtain ⟨z, hz⟩ := Binary64.exists_toInt?_ofInt (natAbs_toInt_lt i)
  have hround := Binary64.roundsTo_of_toInt? hz
  have hlow : -2 ^ 63 ≤ z := hround.le_of_le ⟨ofInt (-2 ^ 63), by decide +kernel⟩ i.le_toInt
  have hj : (Int64.ofInt z).toInt = z := Int64.toInt_ofInt_of_le hlow ((Binary64.lt_limit_iff hz).1.mpr h)
  refine ⟨.ofInt z, by rwa [hj], toInt64_of_toInt? ?_⟩
  rw [hj]
  exact hz

theorem toInt64_narrowed_of_le {i : Int64} (h : 2 ^ 63 - 512 ≤ i.toInt) :
    (int i).narrowed.toInt64 = .error (.mismatch "int64" "uint64") := by
  have hmax := i.toInt_lt
  obtain ⟨z, hz⟩ := Binary64.exists_toInt?_ofInt (natAbs_toInt_lt i)
  obtain ⟨hsigned, hunsigned⟩ := Binary64.lt_limit_iff hz
  have hnarrowed : (int i).narrowed = .uint (.ofNat z.toNat) := ofBinary64_of_uint hz (by omega) (by omega)
  have hnat : (UInt64.ofNat z.toNat).toNat = z.toNat :=
    UInt64.toNat_ofNat_of_lt' (show z.toNat < 18446744073709551616 by omega)
  rw [hnarrowed, toInt64, hnat]
  exact if_neg (show ¬(z.toNat : Int) ≤ 9223372036854775807 by omega)

theorem toUInt64_narrowed_of_lt {u : UInt64} (h : (u.toNat : Int) < 2 ^ 64 - 1024) :
    ∃ v : UInt64, RoundsTo u.toNat v.toNat ∧ (uint u).narrowed.toUInt64 = .ok v := by
  obtain ⟨z, hz⟩ := Binary64.exists_toInt?_ofInt (natAbs_toNat_lt u)
  have hround := Binary64.roundsTo_of_toInt? hz
  have hlow : 0 ≤ z := hround.le_of_le Binary64.holds_zero (Int.natCast_nonneg _)
  have hhigh := (Binary64.lt_limit_iff hz).2.mpr h
  have hv : ((UInt64.ofNat z.toNat).toNat : Int) = z := by
    rw [UInt64.toNat_ofNat_of_lt' (show z.toNat < 18446744073709551616 by omega), Int.toNat_of_nonneg hlow]
  refine ⟨.ofNat z.toNat, by rwa [hv], toUInt64_of_toInt? ?_⟩
  rw [hv]
  exact hz

theorem toUInt64_narrowed_of_le {u : UInt64} (h : 2 ^ 64 - 1024 ≤ (u.toNat : Int)) :
    (uint u).narrowed.toUInt64 = .error (.mismatch "uint64" "float64") := by
  obtain ⟨z, hz⟩ := Binary64.exists_toInt?_ofInt (natAbs_toNat_lt u)
  have hlimit := (Binary64.lt_limit_iff hz).2
  have hnarrowed : (uint u).narrowed = .float (ofInt u.toNat) := ofBinary64_of_float hz (.inr (by omega))
  rw [hnarrowed]
  rfl

theorem toBinary64_narrowed {n : Number} {i : Int} (h : n.toBinary64 = ofInt i)
    (hi : i.natAbs < 18446744073709551616) :
    ∃ x : Binary64.Finite, x.IsNearest i ∧ n.narrowed.toBinary64 = .finite x := by
  obtain ⟨y, hy⟩ := Binary64.exists_ofInt_eq_finite hi
  obtain ⟨x, hx, hnearest⟩ := (Binary64.isNearest_of_ofInt hy).exists_unsignedZero
  refine ⟨x, hnearest, ?_⟩
  rw [narrowed, toBinary64_ofBinary64, h, hy, hx]

end Number

namespace Codec

variable (codec : Codec) (α : Type) [Form α]

def Refuses (type : DatumType) (datum : Datum) (fault : Fault) : Prop :=
  ∃ attr : α, codec.encodeDatum datum = .ok attr ∧ codec.decodeDatum type attr = .error fault

structure KeepsIntegers : Prop where
  int : ∀ i : Int64, i.toInt < 2 ^ 63 - 512 →
    ∃ j : Int64, RoundsTo i.toInt j.toInt ∧ codec.Restores α .int (.int i) (.int j)
  intHeld : ∀ i : Int64, Holds i.toInt → codec.Restores α .int (.int i) (.int i)
  intSmall : ∀ i : Int64, |i.toInt| ≤ 2 ^ 53 → codec.Restores α .int (.int i) (.int i)
  intRefused : ∀ i : Int64, 2 ^ 63 - 512 ≤ i.toInt →
    codec.Refuses α .int (.int i) (.mismatch "int64" "uint64")
  uint : ∀ u : UInt64, (u.toNat : Int) < 2 ^ 64 - 1024 →
    ∃ v : UInt64, RoundsTo u.toNat v.toNat ∧ codec.Restores α .uint (.uint u) (.uint v)
  uintRefused : ∀ u : UInt64, 2 ^ 64 - 1024 ≤ (u.toNat : Int) →
    codec.Refuses α .uint (.uint u) (.mismatch "uint64" "float64")
  intFloat : ∀ i : Int64, ∃ x : Binary64.Finite, x.IsNearest i.toInt ∧
    codec.Restores α .float (.int i) (.float (.finite x))
  uintFloat : ∀ u : UInt64, ∃ x : Binary64.Finite, x.IsNearest (u.toNat : Int) ∧
    codec.Restores α .float (.uint u) (.float (.finite x))

variable {codec α}

theorem refuses_of_decode [LawfulForm α] (hhook : codec.hook = .timestamps) {type : DatumType} {datum : Datum}
    {fault : Fault} (h : datum.reader.decode .timestamps type = .error fault) :
    codec.Refuses α type datum fault := by
  obtain ⟨attr, hattr, hdecode⟩ := exists_encodeDatum (α := α) hhook datum
  exact ⟨attr, hattr, (hdecode type).trans h⟩

open Datum (decode_number_int decode_number_uint decode_number_float)

theorem keepsIntegers [LawfulForm α] (hhook : codec.hook = .timestamps) : codec.KeepsIntegers α where
  int i hi := by
    obtain ⟨j, hround, hj⟩ := Number.toInt64_narrowed_of_lt hi
    refine ⟨j, hround, restores_of_decode hhook ((decode_number_int _).trans ?_)⟩
    rw [hj]
    rfl
  intHeld i hi := restores_of_decode hhook (Datum.decode_int hi)
  intSmall i hi := by
    have hsmall : i.toInt.natAbs ≤ 2 ^ Binary64.precision := by
      rw [Int.abs_eq_natAbs] at hi
      exact_mod_cast hi
    exact restores_of_decode hhook (Datum.decode_int (Binary64.holds_of_natAbs_le hsmall))
  intRefused i hi := by
    refine refuses_of_decode hhook ((decode_number_int _).trans ?_)
    rw [Number.toInt64_narrowed_of_le hi]
    rfl
  uint u hu := by
    obtain ⟨v, hround, hv⟩ := Number.toUInt64_narrowed_of_lt hu
    refine ⟨v, hround, restores_of_decode hhook ((decode_number_uint _).trans ?_)⟩
    rw [hv]
    rfl
  uintRefused u hu := by
    refine refuses_of_decode hhook ((decode_number_uint _).trans ?_)
    rw [Number.toUInt64_narrowed_of_le hu]
    rfl
  intFloat i := by
    obtain ⟨x, hnearest, hx⟩ := Number.toBinary64_narrowed (n := .int i) rfl (Number.natAbs_toInt_lt i)
    refine ⟨x, hnearest, restores_of_decode hhook ((decode_number_float _).trans ?_)⟩
    rw [hx]
  uintFloat u := by
    obtain ⟨x, hnearest, hx⟩ := Number.toBinary64_narrowed (n := .uint u) rfl (Number.natAbs_toNat_lt u)
    refine ⟨x, hnearest, restores_of_decode hhook ((decode_number_float _).trans ?_)⟩
    rw [hx]

theorem keepsIntegers_timestamps (hhook : codec.hook = .timestamps) :
    codec.KeepsIntegers Members ∧ codec.KeepsIntegers Tagged :=
  ⟨keepsIntegers hhook, keepsIntegers hhook⟩

theorem keepsIntegers_timestamps_limits :
    (Codec.mk .timestamps none).Restores Members .int (.int 9007199254740993) (.int 9007199254740992) ∧
      (Codec.mk .timestamps none).Refuses Tagged .int (.int 9223372036854775296) (.mismatch "int64" "uint64") ∧
        (Codec.mk .timestamps none).Refuses Tagged .uint (.uint 18446744073709550592)
          (.mismatch "uint64" "float64") := by
  have hhook : (Codec.mk .timestamps none).hook = .timestamps := rfl
  obtain ⟨hmembers, htagged⟩ := keepsIntegers_timestamps hhook
  obtain ⟨j, hround, hrestores⟩ := hmembers.int 9007199254740993 (by decide)
  have hnearest : RoundsTo 9007199254740993 9007199254740992 := Binary64.roundsTo_of_toInt? (by decide +kernel)
  have hj : j = 9007199254740992 := Int64.toInt_inj.mp (hround.unique hnearest)
  rw [hj] at hrestores
  exact ⟨hrestores, htagged.intRefused _ (by decide), htagged.uintRefused _ (by decide)⟩

end Codec

end AttributeCodec
