import Mathlib.Data.List.Induction
import AttributeCodec.Instant.Text
import AttributeCodec.Proofs.Text.Utf8
import AttributeCodec.Proofs.Traversal

namespace AttributeCodec.Instant

open Text (byte)

attribute [local instance (high)] instPowNat

namespace Scan

theorem isDigit_byte {c : Char} (h : c.isDigit = true) : isDigit (byte c) = true := by
  obtain ⟨hlow, hhigh⟩ := Text.toNat_of_isDigit h
  simpa [isDigit, UInt8.le_iff_toNat_le, Text.toNat_byte h] using ⟨hlow, hhigh⟩

theorem isDigit_map_byte {digits : List Char} (h : ∀ c ∈ digits, c.isDigit = true) :
    ∀ b ∈ digits.map byte, isDigit b = true :=
  List.forall_mem_map.mpr fun c hc => isDigit_byte (h c hc)

theorem ofDigits_map_byte {digits : List Char} (h : ∀ c ∈ digits, c.isDigit = true) :
    ofDigits (digits.map byte) = Nat.ofDigitChars 10 digits 0 := by
  rw [ofDigits, List.foldl_map, Nat.ofDigitChars_eq_foldl]
  generalize 0 = start
  induction digits generalizing start with
  | nil => rfl
  | cons c digits ih =>
    rw [List.forall_mem_cons] at h
    rw [List.foldl_cons, List.foldl_cons, Text.toNat_byte h.1]
    exact ih h.2 _

theorem exists_digits {bytes : List UInt8} (h : ∀ b ∈ bytes, isDigit b = true) :
    ∃ digits : List Char, (∀ c ∈ digits, c.isDigit = true) ∧ bytes = digits.map byte := by
  induction bytes with
  | nil => exact ⟨[], by simp, rfl⟩
  | cons b bytes ih =>
    rw [List.forall_mem_cons] at h
    obtain ⟨digits, hdigits, rfl⟩ := ih h.2
    have hb : 48 ≤ b.toNat ∧ b.toNat ≤ 57 := by simpa [isDigit, UInt8.le_iff_toNat_le] using h.1
    refine ⟨Nat.digitChar (b.toNat - 48) :: digits, List.forall_mem_cons.mpr ⟨?_, hdigits⟩, ?_⟩
    · simp
      omega
    · rw [List.map_cons, Text.byte_digitChar hb.1 hb.2]

theorem number_append {bytes : List UInt8} (hdigits : ∀ b ∈ bytes, isDigit b = true) (rest : List UInt8) :
    number bytes.length (bytes ++ rest) = .ok (ofDigits bytes, rest) := by
  unfold number
  rw [List.take_left, List.drop_left, if_neg (by simp), if_pos (List.all_eq_true.mpr hdigits)]

end Scan

theorem isDigit_padded (width n : Nat) : ∀ c ∈ padded width n, c.isDigit = true := by
  intro c hc
  rcases List.mem_append.mp hc with hc | hc
  · rw [List.eq_of_mem_replicate hc]
    rfl
  · exact Nat.isDigit_of_mem_toDigits (by decide) (by decide) hc

theorem le_length_padded (width n : Nat) : width ≤ (padded width n).length := by
  simp only [padded, List.length_append, List.length_replicate]
  omega

theorem length_padded {width n : Nat} (hwidth : 0 < width) (h : n < 10 ^ width) :
    (padded width n).length = width := by
  have hle : (Nat.toDigits 10 n).length ≤ width := (Nat.length_toDigits_le_iff (by decide) hwidth).mpr h
  simp only [padded, List.length_append, List.length_replicate]
  omega

theorem ofDigitChars_padded (width n : Nat) : Nat.ofDigitChars 10 (padded width n) 0 = n := by
  rw [padded, Nat.ofDigitChars_append, Nat.ofDigitChars_replicate_zero, Nat.mul_zero,
    Nat.ofDigitChars_ten_toDigits]

theorem padded_succ {width : Nat} (hwidth : 0 < width) (n : Nat) :
    padded (width + 1) n = padded width (n / 10) ++ [Nat.digitChar (n % 10)] := by
  by_cases hlt : n < 10
  · obtain ⟨zeros, rfl⟩ := Nat.exists_eq_add_of_lt hwidth
    simp [padded, Nat.toDigits_of_lt_base hlt, Nat.div_eq_of_lt hlt, Nat.mod_eq_of_lt hlt, Nat.toDigits_zero,
      ← List.replicate_succ']
  · simp [padded, Nat.toDigits_of_base_le (b := 10) (n := n) (by decide) (by omega)]

theorem padded_ofDigitChars {digits : List Char} (h : ∀ c ∈ digits, c.isDigit = true) (hne : digits ≠ []) :
    padded digits.length (Nat.ofDigitChars 10 digits 0) = digits := by
  induction digits using List.reverseRecOn with
  | nil => exact absurd rfl hne
  | append_singleton digits c ih =>
    rw [List.forall_mem_append, List.forall_mem_singleton] at h
    obtain ⟨hlow, hhigh⟩ := Text.toNat_of_isDigit h.2
    have hvalue : Nat.ofDigitChars 10 (digits ++ [c]) 0 = Nat.ofDigitChars 10 digits 0 * 10 + (c.toNat - 48) := by
      rw [Nat.ofDigitChars_append, Nat.ofDigitChars_cons, Nat.ofDigitChars_nil, Nat.mul_comm]
      rfl
    rw [hvalue, List.length_append, List.length_singleton]
    by_cases hdigits : digits = []
    · subst hdigits
      simp [padded, Nat.toDigits_of_lt_base (show c.toNat - 48 < 10 by omega), Text.digitChar_toNat h.2]
    · have hquotient : (Nat.ofDigitChars 10 digits 0 * 10 + (c.toNat - 48)) / 10 = Nat.ofDigitChars 10 digits 0 := by
        omega
      have hremainder : (Nat.ofDigitChars 10 digits 0 * 10 + (c.toNat - 48)) % 10 = c.toNat - 48 := by
        omega
      rw [padded_succ (List.length_pos_iff.mpr hdigits), hquotient, hremainder, ih h.1 hdigits,
        Text.digitChar_toNat h.2]

theorem ofDigitChars_lt {digits : List Char} (h : ∀ c ∈ digits, c.isDigit = true) :
    Nat.ofDigitChars 10 digits 0 < 10 ^ digits.length := by
  induction digits using List.reverseRecOn with
  | nil => decide
  | append_singleton digits c ih =>
    rw [List.forall_mem_append, List.forall_mem_singleton] at h
    obtain ⟨hlow, hhigh⟩ := Text.toNat_of_isDigit h.2
    have hlt := ih h.1
    rw [Nat.ofDigitChars_append, Nat.ofDigitChars_cons, Nat.ofDigitChars_nil, List.length_append,
      List.length_singleton, Nat.pow_succ]
    change _ + (c.toNat - 48) < _
    omega

def paddedBytes (width n : Nat) : List UInt8 := (padded width n).map byte

theorem isDigit_paddedBytes (width n : Nat) : ∀ b ∈ paddedBytes width n, Scan.isDigit b = true :=
  Scan.isDigit_map_byte (isDigit_padded width n)

theorem length_paddedBytes {width n : Nat} (hwidth : 0 < width) (h : n < 10 ^ width) :
    (paddedBytes width n).length = width := by
  rw [paddedBytes, List.length_map, length_padded hwidth h]

theorem ofDigits_paddedBytes (width n : Nat) : Scan.ofDigits (paddedBytes width n) = n := by
  rw [paddedBytes, Scan.ofDigits_map_byte (isDigit_padded width n), ofDigitChars_padded]

theorem number_paddedBytes {width n : Nat} (hwidth : 0 < width) (h : n < 10 ^ width) (rest : List UInt8) :
    Scan.number width (paddedBytes width n ++ rest) = .ok (n, rest) := by
  have hnumber := Scan.number_append (isDigit_paddedBytes width n) rest
  rwa [length_paddedBytes hwidth h, ofDigits_paddedBytes] at hnumber

theorem number_eq_ok_iff {count n : Nat} {bytes rest : List UInt8} (hcount : 0 < count) :
    Scan.number count bytes = .ok (n, rest) ↔ n < 10 ^ count ∧ bytes = paddedBytes count n ++ rest := by
  constructor
  · intro h
    unfold Scan.number at h
    split at h
    · cases h
    · next hlength =>
      split at h
      · next hall =>
        obtain ⟨rfl, rfl⟩ := Prod.mk.inj (Except.ok.inj h)
        obtain ⟨digits, hdigits, htake⟩ := Scan.exists_digits (List.all_eq_true.mp hall)
        have hdigitsLength : digits.length = count := by
          rw [← List.length_map (f := byte), ← htake, List.length_take, Nat.min_eq_left (by omega)]
        have hvalue : Scan.ofDigits (bytes.take count) = Nat.ofDigitChars 10 digits 0 := by
          rw [htake, Scan.ofDigits_map_byte hdigits]
        have hne : digits ≠ [] := List.ne_nil_of_length_pos (hdigitsLength ▸ hcount)
        rw [hvalue, paddedBytes, ← hdigitsLength, padded_ofDigitChars hdigits hne, hdigitsLength, ← htake]
        exact ⟨hdigitsLength ▸ ofDigitChars_lt hdigits, (List.take_append_drop count bytes).symm⟩
      · cases h
  · rintro ⟨h, rfl⟩
    exact number_paddedBytes hcount h rest

end AttributeCodec.Instant
