import AttributeCodec.Base64
import AttributeCodec.Proofs.Text.Utf8
import AttributeCodec.Proofs.Traversal

/-! Base64 text is read as some bytes exactly when it is what is written for them. -/

namespace AttributeCodec.Base64

section Symbols

variable {value : Nat}

theorem value?_symbol (h : value < 64) : value? (symbol value) = some value := by
  revert value
  decide

theorem symbol_ne_pad (h : value < 64) : symbol value ≠ pad := by
  revert value
  decide

theorem symbol_lt (h : value < 64) : (symbol value).toNat < 128 := by
  revert value
  decide

theorem lt_and_symbol_of_value? {byte : UInt8} (h : value? byte = some value) :
    value < 64 ∧ symbol value = byte := by
  have hall : ∀ n < 256, ∀ value ∈ value? (.ofNat n), value < 64 ∧ symbol value = .ofNat n := by
    decide +kernel
  have hbyte := hall byte.toNat byte.toNat_lt
  rw [UInt8.ofNat_toNat] at hbyte
  exact hbyte value h

theorem valueAt_eq_ok_iff {byte : UInt8} {offset : Nat} :
    valueAt byte offset = .ok value ↔ value < 64 ∧ symbol value = byte := by
  unfold valueAt
  constructor
  · intro h
    split at h
    · next hvalue =>
      cases h
      exact lt_and_symbol_of_value? hvalue
    · simp at h
  · rintro ⟨hlt, rfl⟩
    rw [value?_symbol hlt]

theorem valueAt_symbol {offset : Nat} (h : value < 64) : valueAt (symbol value) offset = .ok value :=
  valueAt_eq_ok_iff.mpr ⟨h, rfl⟩

end Symbols

theorem countPads_eq_ok_iff {start count : Nat} {bytes : List UInt8} :
    countPads start bytes = .ok count ↔ bytes = List.replicate count pad := by
  induction bytes generalizing count with
  | nil => cases count <;> simp [countPads, List.replicate_succ]
  | cons byte rest ih =>
    rw [countPads]
    cases count with
    | zero =>
      split
      · cases countPads start rest <;> simp [Except.map]
      · simp
    | succ count =>
      rw [List.replicate_succ, List.cons.injEq, ← ih]
      split
      · next hpad => cases countPads start rest <;> simp [Except.map, hpad]
      · next hpad => simp [hpad]

theorem lastSymbols_eq_ok_iff {start pads : Nat} {values found : List Nat} {group : List UInt8} :
    lastSymbols start values group = .ok (found, pads) ↔
      ∃ more, found = values ++ more ∧ (∀ value ∈ more, value < 64) ∧
        group = more.map symbol ++ List.replicate pads pad ∧ (pads = 0 ∨ 2 ≤ found.length) := by
  induction group generalizing values with
  | nil =>
    simp only [lastSymbols, Except.ok.injEq, Prod.mk.injEq]
    constructor
    · rintro ⟨rfl, rfl⟩
      exact ⟨[], by simp⟩
    · rintro ⟨more, rfl, -, hgroup, -⟩
      obtain ⟨hmore, hpads⟩ := List.append_eq_nil_iff.mp hgroup.symm
      rw [List.map_eq_nil_iff.mp hmore, List.append_nil]
      exact ⟨rfl, (List.eq_replicate_iff.mp hpads.symm).1⟩
  | cons byte rest ih =>
    rw [lastSymbols]
    by_cases hpad : byte = pad ∧ 2 ≤ values.length
    · obtain ⟨rfl, hlength⟩ := hpad
      rw [if_pos ⟨rfl, hlength⟩]
      simp only [bind_eq_ok, pure_eq_ok, countPads_eq_ok_iff, Prod.mk.injEq]
      constructor
      · rintro ⟨count, rfl, rfl, rfl⟩
        exact ⟨[], by simpa [List.replicate_succ] using hlength⟩
      · rintro ⟨more, rfl, hmore, hgroup, -⟩
        cases more with
        | nil =>
          cases pads with
          | zero => simp at hgroup
          | succ count =>
            rw [List.map_nil, List.nil_append, List.replicate_succ, List.cons.injEq] at hgroup
            exact ⟨count, hgroup.2, (List.append_nil _).symm, rfl⟩
        | cons value more =>
          rw [List.map_cons, List.cons_append, List.cons.injEq] at hgroup
          exact absurd hgroup.1.symm (symbol_ne_pad (hmore value List.mem_cons_self))
    · rw [if_neg hpad]
      simp only [bind_eq_ok, valueAt_eq_ok_iff, ih]
      constructor
      · rintro ⟨value, ⟨hvalue, rfl⟩, more, rfl, hmore, rfl, hpads⟩
        exact ⟨value :: more, by simp, by simpa using ⟨hvalue, hmore⟩, rfl, hpads⟩
      · rintro ⟨more, rfl, hmore, hgroup, hpads⟩
        cases more with
        | nil =>
          cases pads with
          | zero => simp at hgroup
          | succ count =>
            rw [List.map_nil, List.nil_append, List.replicate_succ, List.cons.injEq] at hgroup
            exact absurd ⟨hgroup.1, by simpa using hpads⟩ hpad
        | cons value more =>
          obtain ⟨hvalue, hmore⟩ := List.forall_mem_cons.mp hmore
          rw [List.map_cons, List.cons_append, List.cons.injEq] at hgroup
          exact ⟨value, ⟨hvalue, hgroup.1.symm⟩, more, by simp, hmore, hgroup.2, hpads⟩

section Groups

variable {a b c d : Nat}

theorem toNat_ofNat {n : Nat} (h : n < 256) : (UInt8.ofNat n).toNat = n := UInt8.toNat_ofNat_of_lt' h

theorem encode_bytesOf (ha : a < 64) (hb : b < 64) (hc : c < 64) (hd : d < 64) (rest : List UInt8) :
    encode (bytesOf a b c d ++ rest) = [a, b, c, d].map symbol ++ encode rest := by
  have hx : (UInt8.ofNat (a * 4 + b / 16)).toNat = a * 4 + b / 16 := toNat_ofNat (by omega)
  have hy : (UInt8.ofNat (b % 16 * 16 + c / 4)).toNat = b % 16 * 16 + c / 4 := toNat_ofNat (by omega)
  have hz : (UInt8.ofNat (c % 4 * 64 + d)).toNat = c % 4 * 64 + d := toNat_ofNat (by omega)
  have h₁ : (a * 4 + b / 16) / 4 = a := by omega
  have h₂ : (a * 4 + b / 16) % 4 * 16 + (b % 16 * 16 + c / 4) / 16 = b := by omega
  have h₃ : (b % 16 * 16 + c / 4) % 16 * 4 + (c % 4 * 64 + d) / 64 = c := by omega
  have h₄ : (c % 4 * 64 + d) % 64 = d := by omega
  simp only [bytesOf, List.cons_append, List.nil_append, encode, first, second, third, fourth, hx, hy, hz,
    h₁, h₂, h₃, h₄, List.map_cons, List.map_nil]

theorem encode_take_two (ha : a < 64) (hb : b < 64) (hc : c < 64) (hunused : c % 4 = 0) :
    encode ((bytesOf a b c 0).take 2) = [a, b, c].map symbol ++ [pad] := by
  have hx : (UInt8.ofNat (a * 4 + b / 16)).toNat = a * 4 + b / 16 := toNat_ofNat (by omega)
  have hy : (UInt8.ofNat (b % 16 * 16 + c / 4)).toNat = b % 16 * 16 + c / 4 := toNat_ofNat (by omega)
  have h₁ : (a * 4 + b / 16) / 4 = a := by omega
  have h₂ : (a * 4 + b / 16) % 4 * 16 + (b % 16 * 16 + c / 4) / 16 = b := by omega
  have h₃ : (b % 16 * 16 + c / 4) % 16 * 4 + (0 : UInt8).toNat / 64 = c := by
    rw [UInt8.toNat_zero]
    omega
  simp only [bytesOf, List.take_succ_cons, List.take_zero, encode, first, second, third, hx, hy, h₁, h₂, h₃,
    List.map_cons, List.map_nil, List.cons_append, List.nil_append]

theorem encode_take_one (ha : a < 64) (hb : b < 64) (hunused : b % 16 = 0) :
    encode ((bytesOf a b 0 0).take 1) = [a, b].map symbol ++ [pad, pad] := by
  have hx : (UInt8.ofNat (a * 4 + b / 16)).toNat = a * 4 + b / 16 := toNat_ofNat (by omega)
  have h₁ : (a * 4 + b / 16) / 4 = a := by omega
  have h₂ : (a * 4 + b / 16) % 4 * 16 + (0 : UInt8).toNat / 16 = b := by
    rw [UInt8.toNat_zero]
    omega
  simp only [bytesOf, List.take_succ_cons, List.take_zero, encode, first, second, hx, h₁, h₂,
    List.map_cons, List.map_nil, List.cons_append, List.nil_append]

end Groups

theorem eq_encode_of_decodeLast {start : Nat} {group bytes : List UInt8}
    (h : decodeLast start group = .ok bytes) : group = encode bytes := by
  simp only [decodeLast, bind_eq_ok] at h
  obtain ⟨⟨found, pads⟩, hsymbols, h⟩ := h
  obtain ⟨more, rfl, hlt, rfl, -⟩ := lastSymbols_eq_ok_iff.mp hsymbols
  split at h
  · next a b c d heq =>
    cases heq
    cases h
    simp only [List.forall_mem_cons] at hlt
    rw [← List.append_nil (bytesOf a b c d), encode_bytesOf hlt.1 hlt.2.1 hlt.2.2.1 hlt.2.2.2.1]
    rfl
  · next a b c heq =>
    cases heq
    simp only [List.forall_mem_cons] at hlt
    split at h
    · next hunused =>
      cases h
      exact (encode_take_two hlt.1 hlt.2.1 hlt.2.2.1 hunused).symm
    · simp at h
  · next a b heq =>
    cases heq
    simp only [List.forall_mem_cons] at hlt
    split at h
    · next hunused =>
      cases h
      exact (encode_take_one hlt.1 hlt.2.1 hunused).symm
    · simp at h
  · simp at h
  · simp at h

theorem eq_encode_of_decodeFrom {start : Nat} {text bytes : List UInt8}
    (h : decodeFrom start text = .ok bytes) : text = encode bytes := by
  fun_induction decodeFrom start text generalizing bytes with
  | case1 =>
    cases h
    rfl
  | case2 start a b c d e rest ih =>
    simp only [bind_eq_ok, pure_eq_ok, valueAt_eq_ok_iff] at h
    obtain ⟨a, ⟨ha, rfl⟩, b, ⟨hb, rfl⟩, c, ⟨hc, rfl⟩, d, ⟨hd, rfl⟩, more, hmore, rfl⟩ := h
    rw [encode_bytesOf ha hb hc hd, ih hmore]
    rfl
  | case3 => exact eq_encode_of_decodeLast h

def sextets (x y z : UInt8) : List Nat :=
  [x.toNat / 4, x.toNat % 4 * 16 + y.toNat / 16, y.toNat % 16 * 4 + z.toNat / 64, z.toNat % 64]

theorem sextets_lt (x y z : UInt8) : ∀ value ∈ sextets x y z, value < 64 := by
  have hx := x.toNat_lt
  have hy := y.toNat_lt
  have hz := z.toNat_lt
  simp only [sextets, List.forall_mem_cons]
  exact ⟨by omega, by omega, by omega, by omega, by simp⟩

theorem bytesOf_sextets (x y z : UInt8) :
    bytesOf (x.toNat / 4) (x.toNat % 4 * 16 + y.toNat / 16) (y.toNat % 16 * 4 + z.toNat / 64)
      (z.toNat % 64) = [x, y, z] := by
  have hx := x.toNat_lt
  have hy := y.toNat_lt
  have hz := z.toNat_lt
  have h₁ : x.toNat / 4 * 4 + (x.toNat % 4 * 16 + y.toNat / 16) / 16 = x.toNat := by omega
  have h₂ : (x.toNat % 4 * 16 + y.toNat / 16) % 16 * 16 + (y.toNat % 16 * 4 + z.toNat / 64) / 4 =
      y.toNat := by omega
  have h₃ : (y.toNat % 16 * 4 + z.toNat / 64) % 4 * 64 + z.toNat % 64 = z.toNat := by omega
  simp only [bytesOf, h₁, h₂, h₃, UInt8.ofNat_toNat]

theorem lastSymbols_sextets (x y z : UInt8) (count pads : Nat) (h : pads = 0 ∨ 2 ≤ count) (start : Nat) :
    lastSymbols start [] (((sextets x y z).take count).map symbol ++ List.replicate pads pad) =
      .ok ((sextets x y z).take count, pads) := by
  refine lastSymbols_eq_ok_iff.mpr ⟨_, rfl, fun value hvalue => ?_, rfl, h.imp_right fun hle => ?_⟩
  · exact sextets_lt x y z value (List.mem_of_mem_take hvalue)
  · simp only [List.length_take, sextets, List.length_cons, List.length_nil]
    omega

theorem decodeLast_encode (start : Nat) (bytes : List UInt8) (hne : bytes ≠ []) (hle : bytes.length ≤ 3) :
    decodeLast start (encode bytes) = .ok bytes := by
  match bytes with
  | [] => exact absurd rfl hne
  | [x] =>
    have hsymbols := lastSymbols_sextets x 0 0 2 2 (.inr (by decide)) start
    have hunused : (x.toNat % 4 * 16 + (0 : UInt8).toNat / 16) % 16 = 0 := by
      rw [UInt8.toNat_zero]
      omega
    show (lastSymbols start [] (encode [x]) >>= _) = _
    refine (congrArg (· >>= _) hsymbols).trans ((if_pos hunused).trans ?_)
    exact congrArg (fun bytes => Except.ok (bytes.take 1)) (bytesOf_sextets x 0 0)
  | [x, y] =>
    have hsymbols := lastSymbols_sextets x y 0 3 1 (.inr (by decide)) start
    have hunused : (y.toNat % 16 * 4 + (0 : UInt8).toNat / 64) % 4 = 0 := by
      rw [UInt8.toNat_zero]
      omega
    show (lastSymbols start [] (encode [x, y]) >>= _) = _
    refine (congrArg (· >>= _) hsymbols).trans ((if_pos hunused).trans ?_)
    exact congrArg (fun bytes => Except.ok (bytes.take 2)) (bytesOf_sextets x y 0)
  | [x, y, z] =>
    have hsymbols := lastSymbols_sextets x y z 4 0 (.inl rfl) start
    show (lastSymbols start [] (encode [x, y, z]) >>= _) = _
    refine (congrArg (· >>= _) hsymbols).trans ?_
    exact congrArg Except.ok (bytesOf_sextets x y z)
  | _ :: _ :: _ :: _ :: _ =>
    simp only [List.length_cons] at hle
    omega

theorem decodeFrom_encode (start : Nat) (bytes : List UInt8) : decodeFrom start (encode bytes) = .ok bytes := by
  fun_induction encode bytes generalizing start with
  | case1 x y z rest ih =>
    cases hrest : encode rest with
    | nil =>
      have hnil := ih 0
      rw [hrest] at hnil
      cases hnil
      exact decodeLast_encode start [x, y, z] (by simp) (by simp)
    | cons e more =>
      obtain ⟨h₁, h₂, h₃, h₄, -⟩ : _ ∧ _ ∧ _ ∧ _ ∧ _ := by
        simpa only [sextets, List.forall_mem_cons] using sextets_lt x y z
      rw [decodeFrom, first, second, third, fourth, valueAt_symbol h₁, valueAt_symbol h₂, valueAt_symbol h₃,
        valueAt_symbol h₄, ← hrest, ih]
      exact congrArg (fun bytes => Except.ok (bytes ++ rest)) (bytesOf_sextets x y z)
  | case2 x y => exact decodeLast_encode start [x, y] (by simp) (by simp)
  | case3 x => exact decodeLast_encode start [x] (by simp) (by simp)
  | case4 => rfl

theorem length_encode_mod (bytes : List UInt8) : (encode bytes).length % 4 = 0 := by
  fun_induction encode bytes with
  | case1 x y z rest ih =>
    simp only [List.length_cons]
    omega
  | _ => simp

theorem decode_eq_ok_iff {text bytes : List UInt8} : decode text = .ok bytes ↔ text = encode bytes := by
  constructor
  · intro h
    unfold decode at h
    split at h
    · next hnone =>
      cases h
      exact List.getLast?_eq_none_iff.mp hnone
    · split at h
      · simp at h
      · exact eq_encode_of_decodeFrom h
  · rintro rfl
    have hlength := length_encode_mod bytes
    unfold decode
    split
    · next hnone =>
      have hfrom := decodeFrom_encode 0 bytes
      rw [List.getLast?_eq_none_iff.mp hnone] at hfrom
      exact hfrom
    · rw [if_neg (by omega), decodeFrom_encode]

theorem toNat_lt_of_mem_encode (bytes : List UInt8) : ∀ b ∈ encode bytes, b.toNat < 128 := by
  have hsymbols (x y z : UInt8) : (first x).toNat < 128 ∧ (second x y).toNat < 128 ∧
      (third y z).toNat < 128 ∧ (fourth z).toNat < 128 := by
    obtain ⟨h₁, h₂, h₃, h₄, -⟩ : _ ∧ _ ∧ _ ∧ _ ∧ _ := by
      simpa only [sextets, List.forall_mem_cons] using sextets_lt x y z
    exact ⟨symbol_lt h₁, symbol_lt h₂, symbol_lt h₃, symbol_lt h₄⟩
  have hpad : pad.toNat < 128 := by decide
  fun_induction encode bytes with
  | case1 x y z rest ih =>
    obtain ⟨h₁, h₂, h₃, h₄⟩ := hsymbols x y z
    simpa only [List.forall_mem_cons] using ⟨h₁, h₂, h₃, h₄, ih⟩
  | case2 x y =>
    obtain ⟨h₁, h₂, h₃, -⟩ := hsymbols x y 0
    simpa [h₁, h₂, h₃] using hpad
  | case3 x =>
    obtain ⟨h₁, h₂, -⟩ := hsymbols x 0 0
    simpa [h₁, h₂] using hpad
  | case4 => simp

theorem utf8_write (bytes : List UInt8) : Text.utf8 (write bytes) = encode bytes := by
  have hchar : ∀ b ∈ encode bytes, (Char.ofNat b.toNat).toNat = b.toNat := fun b hb => by
    have hlt := toNat_lt_of_mem_encode bytes b hb
    rw [Char.ofNat, dif_pos (.inl (by omega))]
    rfl
  rw [write, Text.utf8_ofList, List.map_map, map_eq_self]
  · intro b hb
    rw [Function.comp, Text.byte, hchar b hb, UInt8.ofNat_toNat]
  · rw [List.forall_mem_map]
    intro b hb
    rw [hchar b hb]
    exact toNat_lt_of_mem_encode bytes b hb

theorem read_eq_ok_iff {text : String} {bytes : List UInt8} : read text = .ok bytes ↔ text = write bytes := by
  rw [read, decode_eq_ok_iff, ← utf8_write]
  exact ⟨Text.utf8_injective, congrArg Text.utf8⟩

end AttributeCodec.Base64
