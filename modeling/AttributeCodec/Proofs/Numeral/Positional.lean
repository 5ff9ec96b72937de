import AttributeCodec.Proofs.Numeral.Text

namespace AttributeCodec.Numeral

attribute [local instance (high)] instPowNat
attribute [local irreducible] Binary64.unitExponent

inductive WholePart : List Char → Prop
  | zero : WholePart ['0']
  | digits {first : Char} {rest : List Char} (hfirst : first.isDigit = true) (hne : first ≠ '0')
      (hrest : ∀ d ∈ rest, d.isDigit = true) : WholePart (first :: rest)

inductive PlacesPart : List Char → Prop
  | none : PlacesPart []
  | digits {rest : List Char} {last : Char} (hrest : ∀ d ∈ rest, d.isDigit = true) (hlast : last.isDigit = true)
      (hne : last ≠ '0') : PlacesPart ('.' :: (rest ++ [last]))

inductive Positional : Bool → List Char → Prop
  | intro {negative : Bool} {whole places : List Char} (hwhole : WholePart whole) (hplaces : PlacesPart places) :
      Positional negative ((if negative then ['-'] else []) ++ (whole ++ places))

theorem wholePart_toDigits (n : Nat) : WholePart (Nat.toDigits 10 n) := by
  induction n using Nat.strongRecOn with
  | ind n ih =>
    by_cases hlt : n < 10
    · rw [Nat.toDigits_of_lt_base hlt]
      by_cases hn : n = 0
      · rw [hn]
        exact .zero
      · exact .digits (by simpa using hlt) (mt Nat.digitChar_eq_zero.mp hn) (by simp)
    · rw [Nat.toDigits_of_base_le (by decide) (by omega)]
      have hdigit : (Nat.digitChar (n % 10)).isDigit = true := by simpa using Nat.mod_lt n (by decide)
      have hquotient := ih (n / 10) (by omega)
      cases hdigits : Nat.toDigits 10 (n / 10) with
      | nil => exact absurd hdigits Nat.toDigits_ne_nil
      | cons first rest =>
        rw [hdigits] at hquotient
        cases hquotient with
        | zero =>
          have hvalue := congrArg (Nat.ofDigitChars 10 · 0) hdigits
          simp only [Nat.ofDigitChars_ten_toDigits] at hvalue
          have hzero : n / 10 = 0 := hvalue
          omega
        | digits hfirst hne hrest =>
          refine .digits hfirst hne (List.forall_mem_append.mpr ⟨hrest, ?_⟩)
          simpa using hdigit

theorem places_eq_nil {one count rest : Nat} (h : rest < one) (hdvd : one ∣ rest * 10 ^ count)
    (hnil : places one count rest = []) : rest = 0 := by
  cases count with
  | zero => exact Nat.eq_zero_of_dvd_of_lt (by simpa using hdvd) h
  | succ count =>
    rw [places] at hnil
    split at hnil
    · assumption
    · cases hnil

theorem getLast_places {one count rest : Nat} (h : rest < one) (hdvd : one ∣ rest * 10 ^ count) :
    ∀ c ∈ (places one count rest).getLast?, c ≠ '0' := by
  induction count generalizing rest with
  | zero => simp [places]
  | succ count ih =>
    have hnext : rest * 10 % one < one := Nat.mod_lt _ (by omega)
    rw [places]
    split
    · simp
    · next hrest =>
      cases hplaces : places one count (rest * 10 % one) with
      | nil =>
        -- The last place leaves no rest, so that digit is zero only of zero.
        have hzero := places_eq_nil hnext (dvd_rest hdvd) hplaces
        have hdigit : rest * 10 / one ≠ 0 := by
          intro hdigit
          have hsplit := Nat.div_add_mod (rest * 10) one
          rw [hdigit, hzero, Nat.mul_zero] at hsplit
          omega
        simpa using hdigit
      | cons c digits =>
        rw [List.getLast?_cons_cons, ← hplaces]
        exact ih hnext (dvd_rest hdvd)

theorem placesPart_pointed {digits : List Char} (hdigits : ∀ d ∈ digits, d.isDigit = true)
    (hlast : ∀ c ∈ digits.getLast?, c ≠ '0') : PlacesPart (pointed digits) := by
  rcases List.eq_nil_or_concat digits with rfl | ⟨rest, last, rfl⟩
  · exact .none
  · rw [List.concat_eq_append] at hdigits hlast ⊢
    have hpointed : pointed (rest ++ [last]) = '.' :: (rest ++ [last]) := by
      cases rest <;> rfl
    rw [List.forall_mem_append, List.forall_mem_singleton] at hdigits
    rw [hpointed]
    exact .digits hdigits.1 hdigits.2 (hlast last (by simp))

theorem positional_ofFinite (x : Binary64.Finite) : Positional x.negative (ofFinite x) := by
  have hlt := Nat.mod_lt (Binary64.shortestSteps x.units) stepsPerOne_pos
  have hplaces := placesPart_pointed (isDigit_places hlt) (getLast_places hlt (Nat.dvd_mul_left ..))
  rw [ofFinite, fixedPoint_eq]
  exact .intro (wholePart_toDigits _) hplaces

end AttributeCodec.Numeral
