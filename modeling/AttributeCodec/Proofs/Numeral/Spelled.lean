import AttributeCodec.Proofs.Numeral.Text

namespace AttributeCodec.Numeral

inductive Sign : Bool → List Char → Prop
  | none : Sign false []
  | plus : Sign false ['+']
  | minus : Sign true ['-']

inductive Exponent : Int → List Char → Prop
  | none : Exponent 0 []
  | some {c : Char} {negative : Bool} {sign digits : List Char} (hletter : c.toLower = 'e')
      (hsign : Sign negative sign) (hne : digits ≠ []) (hdigits : ∀ d ∈ digits, d.isDigit = true) :
      Exponent (if negative then -ofDigits digits else ofDigits digits) (c :: (sign ++ digits))

inductive Places : List Char → List Char → Prop
  | none : Places [] []
  | some {places : List Char} (hdigits : ∀ d ∈ places, d.isDigit = true) : Places places ('.' :: places)

inductive Spelled : List Char → Numeral → Prop
  | nan {negative : Bool} {sign word : List Char} (hsign : Sign negative sign)
      (hword : word.map Char.toLower = ['n', 'a', 'n']) : Spelled (sign ++ word) .nan
  | infinite {negative : Bool} {sign word : List Char} (hsign : Sign negative sign)
      (hword : word.map Char.toLower = ['i', 'n', 'f'] ∨
        word.map Char.toLower = ['i', 'n', 'f', 'i', 'n', 'i', 't', 'y']) :
      Spelled (sign ++ word) (.infinite negative)
  | decimal {negative : Bool} {exponent : Int} {sign whole places fraction power : List Char}
      (hsign : Sign negative sign) (hwhole : ∀ d ∈ whole, d.isDigit = true) (hfraction : Places places fraction)
      (hne : whole ++ places ≠ []) (hpower : Exponent exponent power) :
      Spelled (sign ++ (whole ++ (fraction ++ power)))
        (.decimal negative (ofDigits (whole ++ places)) (exponent - places.length))

theorem unsigned_sign {negative : Bool} {sign body : List Char} (hsign : Sign negative sign)
    (hbody : ∀ c ∈ body.head?, c ≠ '-' ∧ c ≠ '+') : unsigned (sign ++ body) = (negative, body) := by
  cases hsign with
  | none =>
    rw [List.nil_append]
    unfold unsigned
    split
    · exact absurd rfl (hbody '-' rfl).1
    · exact absurd rfl (hbody '+' rfl).2
    · rfl
  | plus => rfl
  | minus => rfl

theorem exists_sign_of_unsigned {text body : List Char} {negative : Bool} (h : unsigned text = (negative, body)) :
    ∃ sign, Sign negative sign ∧ text = sign ++ body := by
  unfold unsigned at h
  split at h
  · obtain ⟨⟩ := h
    exact ⟨['-'], .minus, rfl⟩
  · obtain ⟨⟩ := h
    exact ⟨['+'], .plus, rfl⟩
  · obtain ⟨⟩ := h
    exact ⟨[], .none, rfl⟩

theorem ne_sign_of_isDigit {c : Char} (h : c.isDigit = true) : c ≠ '-' ∧ c ≠ '+' :=
  ⟨by rintro rfl; simp at h, by rintro rfl; simp at h⟩

theorem digits?_of_isDigit {text : List Char} (hne : text ≠ []) (hdigits : ∀ d ∈ text, d.isDigit = true) :
    digits? text = some (ofDigits text) := by
  rw [digits?, if_pos ⟨hne, List.all_eq_true.mpr hdigits⟩]

theorem isDigit_of_digits? {text : List Char} {n : Nat} (h : digits? text = some n) :
    text ≠ [] ∧ (∀ d ∈ text, d.isDigit = true) ∧ ofDigits text = n := by
  unfold digits? at h
  split at h
  · next hdigits =>
    rw [List.all_eq_true] at hdigits
    exact ⟨hdigits.1, hdigits.2, Option.some_inj.mp h⟩
  · cases h

theorem exponent?_of_exponent {e : Int} {text : List Char} (h : Exponent e text) : exponent? text = some e := by
  cases h with
  | none => rfl
  | some hletter hsign hne hdigits =>
    have hhead : ∀ c ∈ List.head? _, c ≠ '-' ∧ c ≠ '+' := fun c hc =>
      ne_sign_of_isDigit (hdigits c (List.mem_of_mem_head? hc))
    rw [exponent?, if_pos hletter, unsigned_sign hsign hhead]
    simp only [digits?_of_isDigit hne hdigits, Option.map_some]

theorem exponent_of_exponent? {e : Int} {text : List Char} (h : exponent? text = some e) : Exponent e text := by
  cases text with
  | nil =>
    obtain ⟨⟩ := h
    exact .none
  | cons c rest =>
    rw [exponent?] at h
    split at h
    · next hletter =>
      rcases hunsigned : unsigned rest with ⟨negative, digits⟩
      simp only [hunsigned, Option.map_eq_some_iff] at h
      obtain ⟨n, hn, rfl⟩ := h
      obtain ⟨sign, hsign, rfl⟩ := exists_sign_of_unsigned hunsigned
      obtain ⟨hne, hdigits, rfl⟩ := isDigit_of_digits? hn
      exact .some hletter hsign hne hdigits
    · cases h

theorem head_of_exponent {e : Int} {text : List Char} (h : Exponent e text) :
    ∀ c ∈ text.head?, c.isDigit = false ∧ c ≠ '.' := by
  cases h with
  | none => simp
  | some hletter =>
    rintro c ⟨⟩
    constructor
    · cases hdigit : Char.isDigit _ with
      | false => rfl
      | true =>
        rw [toLower_of_isDigit hdigit] at hletter
        simp [hletter] at hdigit
    · rintro rfl
      simp at hletter

theorem fraction_of_places {places written rest : List Char} (h : Places places written)
    (hrest : ∀ c ∈ rest.head?, c.isDigit = false ∧ c ≠ '.') : fraction (written ++ rest) = (places, rest) := by
  cases h with
  | none =>
    rw [List.nil_append]
    unfold fraction
    split
    · exact absurd rfl (hrest '.' rfl).2
    · rfl
  | some hdigits =>
    obtain ⟨htake, hdrop⟩ := takeWhile_digits hdigits fun c hc => (hrest c hc).1
    rw [List.cons_append, fraction, htake, hdrop]

theorem exists_places_of_fraction {text places rest : List Char} (h : fraction text = (places, rest)) :
    ∃ written, Places places written ∧ text = written ++ rest := by
  unfold fraction at h
  split at h
  · obtain ⟨⟩ := h
    refine ⟨_, .some (List.all_eq_true.mp List.all_takeWhile), ?_⟩
    rw [List.cons_append, List.takeWhile_append_dropWhile]
  · obtain ⟨⟩ := h
    exact ⟨[], .none, rfl⟩

section Decimal

variable {negative : Bool} {exponent : Int} {whole places written power : List Char}

theorem head_of_places (hwritten : Places places written) (hpower : Exponent exponent power) :
    ∀ c ∈ (written ++ power).head?, c.isDigit = false := by
  cases hwritten with
  | none => exact fun c hc => (head_of_exponent hpower c hc).1
  | some => simp

theorem decimal?_of_places (hwhole : ∀ d ∈ whole, d.isDigit = true) (hwritten : Places places written)
    (hne : whole ++ places ≠ []) (hpower : Exponent exponent power) :
    decimal? negative (whole ++ (written ++ power)) =
      some (.decimal negative (ofDigits (whole ++ places)) (exponent - places.length)) := by
  obtain ⟨htake, hdrop⟩ := takeWhile_digits hwhole (head_of_places hwritten hpower)
  unfold decimal?
  rw [htake, hdrop, fraction_of_places hwritten (head_of_exponent hpower)]
  simp only [if_neg hne, exponent?_of_exponent hpower, Option.map_some]

theorem head_decimal (hwhole : ∀ d ∈ whole, d.isDigit = true) (hwritten : Places places written)
    (hne : whole ++ places ≠ []) :
    ∃ c rest, whole ++ (written ++ power) = c :: rest ∧ (c.isDigit = true ∨ c = '.') := by
  cases whole with
  | cons d whole => exact ⟨d, _, rfl, .inl (hwhole d List.mem_cons_self)⟩
  | nil =>
    cases hwritten with
    | none => exact absurd rfl hne
    | some => exact ⟨'.', _, rfl, .inr rfl⟩

theorem spelled_of_decimal? {sign text : List Char} {numeral : Numeral} (hsign : Sign negative sign)
    (h : decimal? negative text = some numeral) : Spelled (sign ++ text) numeral := by
  unfold decimal? at h
  rcases hfraction : fraction (text.dropWhile Char.isDigit) with ⟨places, rest⟩
  simp only [hfraction] at h
  split at h
  · cases h
  · next hne =>
    rw [Option.map_eq_some_iff] at h
    obtain ⟨e, he, rfl⟩ := h
    obtain ⟨written, hwritten, hdrop⟩ := exists_places_of_fraction hfraction
    have hspelled := Spelled.decimal hsign (List.all_eq_true.mp List.all_takeWhile) hwritten hne
      (exponent_of_exponent? he)
    rwa [← hdrop, List.takeWhile_append_dropWhile] at hspelled

end Decimal

theorem spelled_of_ofChars? {text : List Char} {numeral : Numeral} (h : ofChars? text = some numeral) :
    Spelled text numeral := by
  unfold ofChars? at h
  rcases hunsigned : unsigned text with ⟨negative, body⟩
  obtain ⟨sign, hsign, rfl⟩ := exists_sign_of_unsigned hunsigned
  simp only [hunsigned] at h
  split at h
  · next hword =>
    obtain ⟨⟩ := h
    exact .nan hsign hword
  · split at h
    · next hword =>
      obtain ⟨⟩ := h
      exact .infinite hsign hword
    · exact spelled_of_decimal? hsign h

theorem ne_sign_of_toLower {word : List Char} {c : Char} (h : (word.map Char.toLower).head? = some c)
    (hc : c ≠ '-' ∧ c ≠ '+') : ∀ d ∈ word.head?, d ≠ '-' ∧ d ≠ '+' := by
  intro d hd
  rw [List.head?_map, hd, Option.map_some, Option.some_inj] at h
  subst h
  constructor
  · rintro rfl
    exact hc.1 rfl
  · rintro rfl
    exact hc.2 rfl

theorem ofChars?_of_spelled {text : List Char} {numeral : Numeral} (h : Spelled text numeral) :
    ofChars? text = some numeral := by
  cases h with
  | nan hsign hword =>
    have hhead := ne_sign_of_toLower (c := 'n') (by rw [hword]; rfl) (by decide)
    unfold ofChars?
    rw [unsigned_sign hsign hhead]
    simp only [hword, if_true]
  | infinite hsign hword =>
    have hhead := ne_sign_of_toLower (c := 'i') (by rcases hword with hword | hword <;> rw [hword] <;> rfl)
      (by decide)
    unfold ofChars?
    rw [unsigned_sign hsign hhead]
    rcases hword with hword | hword <;> simp [hword]
  | @decimal negative _ _ _ _ _ _ hsign hwhole hwritten hne hpower =>
    have hdecimal := @decimal?_of_places negative _ _ _ _ _ hwhole hwritten hne hpower
    obtain ⟨c, rest, hbody, hc⟩ := head_decimal hwhole hwritten hne
    rw [hbody] at hdecimal ⊢
    have hlower : c.toLower ≠ 'n' ∧ c.toLower ≠ 'i' ∧ c ≠ '-' ∧ c ≠ '+' := by
      rcases hc with hdigit | rfl
      · rw [toLower_of_isDigit hdigit]
        refine ⟨?_, ?_, ne_sign_of_isDigit hdigit⟩ <;> rintro rfl <;> simp at hdigit
      · decide
    unfold ofChars?
    rw [unsigned_sign hsign (by rintro d ⟨⟩; exact hlower.2.2)]
    simp [hlower.1, hlower.2.1, hdecimal]

theorem ofChars?_eq_some_iff {text : List Char} {numeral : Numeral} :
    ofChars? text = some numeral ↔ Spelled text numeral :=
  ⟨spelled_of_ofChars?, ofChars?_of_spelled⟩

theorem Spelled.unique {text : List Char} {numeral other : Numeral} (h : Spelled text numeral)
    (hother : Spelled text other) : numeral = other :=
  Option.some_inj.mp ((ofChars?_of_spelled h).symm.trans (ofChars?_of_spelled hother))

end AttributeCodec.Numeral
