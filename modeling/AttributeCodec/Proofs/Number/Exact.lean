import AttributeCodec.Proofs.Number.Accepted
import AttributeCodec.Proofs.Reader.InPlace

/-! Every numeric read of one number text is the same number. -/

namespace AttributeCodec

namespace Binary64

def IsWholeIn (x : Binary64) (low high : ℤ) : Prop := ∃ z : ℤ, x.toRat? = some (z : ℚ) ∧ low ≤ z ∧ z < high

theorem isWholeIn_iff {x : Binary64} {low high : ℤ} :
    x.IsWholeIn low high ↔ ∃ z, x.toInt? = some z ∧ low ≤ z ∧ z < high := by
  simp only [IsWholeIn, toInt?_eq_some_iff]

theorem isWholeIn_or_iff {x : Binary64} {low middle high : ℤ} (hlow : low ≤ middle) (hhigh : middle ≤ high) :
    x.IsWholeIn low middle ∨ x.IsWholeIn middle high ↔ x.IsWholeIn low high := by
  constructor
  · rintro (⟨z, hz, hge, hlt⟩ | ⟨z, hz, hge, hlt⟩)
    · exact ⟨z, hz, hge, hlt.trans_le hhigh⟩
    · exact ⟨z, hz, hlow.trans hge, hlt⟩
  · rintro ⟨z, hz, hge, hlt⟩
    rcases lt_or_ge z middle with hbelow | habove
    · exact .inl ⟨z, hz, hge, hbelow⟩
    · exact .inr ⟨z, hz, habove, hlt⟩

end Binary64

namespace Number

open Binary64 (toInt?_eq_some_iff isWholeIn_iff isWholeIn_or_iff)

variable {x : Binary64}

theorem exists_eq_int_iff : (∃ i, ofBinary64 x = .int i) ↔ x.IsWholeIn (-2 ^ 63) (2 ^ 63) := by
  rw [isWholeIn_iff]
  constructor
  · rintro ⟨i, hi⟩
    exact ⟨_, toInt?_of_ofBinary64_int hi, i.le_toInt, i.toInt_lt⟩
  · rintro ⟨z, hz, hlow, hhigh⟩
    exact ⟨_, ofBinary64_of_int hz hlow hhigh⟩

theorem exists_eq_uint_iff : (∃ u, ofBinary64 x = .uint u) ↔ x.IsWholeIn (2 ^ 63) (2 ^ 64) := by
  rw [isWholeIn_iff]
  constructor
  · rintro ⟨u, hu⟩
    exact ⟨_, toInt?_of_ofBinary64_uint hu, by exact_mod_cast le_of_ofBinary64_uint hu,
      by exact_mod_cast u.toNat_lt⟩
  · rintro ⟨z, hz, hlow, hhigh⟩
    exact ⟨_, ofBinary64_of_uint hz hlow hhigh⟩

theorem exists_eq_float_iff : (∃ y, ofBinary64 x = .float y) ↔ ¬x.IsWholeIn (-2 ^ 63) (2 ^ 64) := by
  rw [← isWholeIn_or_iff (show -2 ^ 63 ≤ 2 ^ 63 by decide) (by decide), ← exists_eq_int_iff, ← exists_eq_uint_iff]
  cases ofBinary64 x <;> simp

theorem exists_toInt64_iff : (∃ i, (ofBinary64 x).toInt64 = .ok i) ↔ x.IsWholeIn (-2 ^ 63) (2 ^ 63) := by
  rw [isWholeIn_iff]
  constructor
  · rintro ⟨i, hi⟩
    exact ⟨_, toInt?_of_toInt64 hi, i.le_toInt, i.toInt_lt⟩
  · rintro ⟨z, hz, hlow, hhigh⟩
    refine ⟨.ofInt z, toInt64_of_toInt? ?_⟩
    rw [hz, Int64.toInt_ofInt_of_le hlow hhigh]

theorem exists_toUInt64_iff : (∃ u, (ofBinary64 x).toUInt64 = .ok u) ↔ x.IsWholeIn 0 (2 ^ 64) := by
  rw [isWholeIn_iff]
  constructor
  · rintro ⟨u, hu⟩
    exact ⟨_, toInt?_of_toUInt64 hu, Int.natCast_nonneg _, by exact_mod_cast u.toNat_lt⟩
  · rintro ⟨z, hz, hlow, hhigh⟩
    refine ⟨.ofNat z.toNat, toUInt64_of_toInt? ?_⟩
    rw [hz, UInt64.toNat_ofNat_of_lt' (show z.toNat < 18446744073709551616 by omega), Int.toNat_of_nonneg hlow]

theorem fault_of_toInt64 {n : Number} {fault : Fault} (h : n.toInt64 = .error fault) :
    fault = .mismatch "int64" n.kind.name := by
  cases n with
  | int i => cases h
  | uint u =>
    rw [toInt64] at h
    split at h
    · cases h
    · cases h
      rfl
  | float y =>
    cases h
    rfl

theorem fault_of_toUInt64 {n : Number} {fault : Fault} (h : n.toUInt64 = .error fault) :
    fault = .mismatch "uint64" n.kind.name := by
  cases n with
  | int i =>
    rw [toUInt64] at h
    split at h
    · cases h
    · cases h
      rfl
  | uint u => cases h
  | float y =>
    cases h
    rfl

structure Narrows (x : Binary64) (n : Number) : Prop where
  int : (∃ i, n = .int i) ↔ x.IsWholeIn (-2 ^ 63) (2 ^ 63)
  uint : (∃ u, n = .uint u) ↔ x.IsWholeIn (2 ^ 63) (2 ^ 64)
  float : (∃ y, n = .float y) ↔ ¬x.IsWholeIn (-2 ^ 63) (2 ^ 64)
  intValue : ∀ i, n = .int i → x.toRat? = some (i.toInt : ℚ)
  uintValue : ∀ u, n = .uint u → x.toRat? = some (u.toNat : ℚ)
  floatValue : ∀ y, n = .float y → y = x

theorem narrows_ofBinary64 (x : Binary64) : Narrows x (ofBinary64 x) where
  int := exists_eq_int_iff
  uint := exists_eq_uint_iff
  float := exists_eq_float_iff
  intValue _ h := toInt?_eq_some_iff.mp (toInt?_of_ofBinary64_int h)
  uintValue _ h := toInt?_eq_some_iff.mp (toInt?_of_ofBinary64_uint h)
  floatValue _ h := eq_of_ofBinary64_float h

end Number

structure Reader.Denotes (reader : Reader) (x : Binary64) : Prop where
  float : reader.float = .ok x.unsignedZero
  int : ∀ i, reader.int = .ok i ↔ x.toRat? = some (i.toInt : ℚ)
  uint : ∀ u, reader.uint = .ok u ↔ x.toRat? = some (u.toNat : ℚ)
  existsInt : (∃ i, reader.int = .ok i) ↔ x.IsWholeIn (-2 ^ 63) (2 ^ 63)
  existsUint : (∃ u, reader.uint = .ok u) ↔ x.IsWholeIn 0 (2 ^ 64)
  intFault : ∀ fault, reader.int = .error fault → fault = .mismatch "int64" reader.kind.name
  uintFault : ∀ fault, reader.uint = .error fault → fault = .mismatch "uint64" reader.kind.name

namespace Number

open Binary64 (toInt?_eq_some_iff)

theorem reader_denotes (x : Binary64) : (ofBinary64 x).reader.Denotes x where
  float := congrArg Except.ok (toBinary64_ofBinary64 x)
  int _ := Iff.trans ⟨toInt?_of_toInt64, toInt64_of_toInt?⟩ toInt?_eq_some_iff
  uint _ := Iff.trans ⟨toInt?_of_toUInt64, toUInt64_of_toInt?⟩ toInt?_eq_some_iff
  existsInt := exists_toInt64_iff
  existsUint := exists_toUInt64_iff
  intFault _ := fault_of_toInt64
  uintFault _ := fault_of_toUInt64

open Attribute (Form)

theorem reads_denote {text : String} {numeral : Numeral} {n : Number} {x : Binary64}
    (hspelled : numeral.Spelled text.toList) (hread : read text = .ok n) (hround : numeral.RoundsTo x) :
    Narrows x n ∧
      ∀ {α : Type} [Form α] (attr : α), Form.view attr = .number text →
        Attribute.tree attr = .ok (.number n) ∧ (Attribute.reader attr).Denotes x ∧
          (Tree.number n).reader.Denotes x := by
  obtain rfl := eq_ofBinary64_of_roundsTo hspelled hread hround
  refine ⟨narrows_ofBinary64 x, fun attr hview => ?_⟩
  have htree : Attribute.tree attr = .ok (.number (ofBinary64 x)) := by
    rw [Attribute.tree, hview, Attribute.View.tree, hread]
    rfl
  have hreader : Attribute.reader attr = (Tree.number (ofBinary64 x)).reader := Attribute.View.reader_of_tree htree
  rw [hreader]
  exact ⟨htree, reader_denotes x, reader_denotes x⟩

def belowLeast : String := "-9223372036854775809"

theorem reads_denote_belowLeast :
    read belowLeast = .ok (.int Int64.minValue) ∧
      (Attribute.reader { number? := some belowLeast : Attribute.Members }).Denotes (.ofInt Int64.minValue.toInt) ∧
        (Tree.number (.int Int64.minValue)).reader.Denotes (.ofInt Int64.minValue.toInt) := by
  have hchars : Numeral.ofChars? belowLeast.toList = some (.decimal true 9223372036854775809 0) := by
    decide +kernel
  have hread : read belowLeast = .ok (.int Int64.minValue) := by decide +kernel
  have hvalue : (Numeral.decimal true 9223372036854775809 0).toBinary64 = .ofInt Int64.minValue.toInt := by
    decide +kernel
  have hspelled := Numeral.ofChars?_eq_some_iff.mp hchars
  have hround := Numeral.roundsTo_toBinary64 (read_eq_ofBinary64 hspelled hread).2
  rw [hvalue] at hround
  obtain ⟨-, hreads⟩ := reads_denote hspelled hread hround
  exact ⟨hread, (hreads _ rfl).2⟩

end Number

end AttributeCodec
