import AttributeCodec.Text.Utf8

namespace AttributeCodec.Text

theorem utf8_injective {text other : String} (h : utf8 text = utf8 other) : text = other := by
  have hbytes : text.toList.utf8Encode = other.toList.utf8Encode := congrArg List.toByteArray h
  rw [String.utf8Encode_toList, String.utf8Encode_toList] at hbytes
  exact String.toByteArray_inj.mp hbytes

def bytes (chars : List Char) : List UInt8 := chars.flatMap String.utf8EncodeChar

theorem utf8_eq (text : String) : utf8 text = bytes text.toList := rfl

@[simp] theorem bytes_nil : bytes [] = [] := rfl

@[simp] theorem bytes_append (chars others : List Char) : bytes (chars ++ others) = bytes chars ++ bytes others :=
  List.flatMap_append

theorem bytes_cons (c : Char) (chars : List Char) : bytes (c :: chars) = String.utf8EncodeChar c ++ bytes chars :=
  List.flatMap_cons

theorem length_le_length_bytes (chars : List Char) : chars.length ≤ (bytes chars).length := by
  induction chars with
  | nil => simp
  | cons c chars ih =>
    have hc := c.utf8Size_pos
    rw [bytes_cons, List.length_append, String.length_utf8EncodeChar, List.length_cons]
    omega

theorem bytes_injective {chars others : List Char} (h : bytes chars = bytes others) : chars = others := by
  have htext : String.ofList chars = String.ofList others := by
    apply utf8_injective
    rw [utf8_eq, utf8_eq, String.toList_ofList, String.toList_ofList, h]
  exact String.ofList_injective htext

def byte (c : Char) : UInt8 := .ofNat c.toNat

theorem utf8EncodeChar_of_lt {c : Char} (h : c.toNat < 128) : String.utf8EncodeChar c = [byte c] := by
  unfold String.utf8EncodeChar
  exact if_pos (Nat.le_of_lt_succ h)

theorem bytes_eq_map {chars : List Char} (h : ∀ c ∈ chars, c.toNat < 128) : bytes chars = chars.map byte := by
  induction chars with
  | nil => rfl
  | cons c chars ih =>
    rw [List.forall_mem_cons] at h
    rw [bytes_cons, utf8EncodeChar_of_lt h.1, ih h.2, List.map_cons, List.singleton_append]

theorem utf8_ofList {chars : List Char} (h : ∀ c ∈ chars, c.toNat < 128) :
    utf8 (.ofList chars) = chars.map byte := by
  rw [utf8_eq, String.toList_ofList, bytes_eq_map h]

theorem toNat_of_isDigit {c : Char} (h : c.isDigit = true) : 48 ≤ c.toNat ∧ c.toNat ≤ 57 := by
  simpa [Char.isDigit, UInt32.le_iff_toNat_le] using h

theorem bytes_of_isDigit {digits : List Char} (h : ∀ c ∈ digits, c.isDigit = true) :
    bytes digits = digits.map byte := by
  refine bytes_eq_map fun c hc => ?_
  obtain ⟨-, hle⟩ := toNat_of_isDigit (h c hc)
  omega

theorem toNat_byte {c : Char} (h : c.isDigit = true) : (byte c).toNat = c.toNat := by
  obtain ⟨-, hle⟩ := toNat_of_isDigit h
  exact UInt8.toNat_ofNat_of_lt' (show c.toNat < 256 by omega)

theorem digitChar_toNat {c : Char} (h : c.isDigit = true) : Nat.digitChar (c.toNat - 48) = c := by
  obtain ⟨hlow, hhigh⟩ := toNat_of_isDigit h
  apply Char.toNat_inj.mp
  rw [Nat.toNat_digitChar_of_lt_ten (by omega)]
  omega

theorem byte_digitChar {b : UInt8} (hlow : 48 ≤ b.toNat) (hhigh : b.toNat ≤ 57) :
    byte (Nat.digitChar (b.toNat - 48)) = b := by
  apply UInt8.toNat_inj.mp
  rw [toNat_byte (by simp; omega), Nat.toNat_digitChar_of_lt_ten (by omega)]
  omega

end AttributeCodec.Text
