import AttributeCodec.Proofs.Entries

/-! Runs that agree: both succeed, with related results, or both fail, each with a fault of its own. -/

namespace AttributeCodec

variable {α α' β β' γ ε ε' : Type} {R : α → β → Prop} {S : α' → β' → Prop}

inductive Agree (R : α → β → Prop) : Except ε α → Except ε' β → Prop
  | ok {x : α} {y : β} (h : R x y) : Agree R (.ok x) (.ok y)
  | error (fault : ε) (fault' : ε') : Agree R (.error fault) (.error fault')

namespace Agree

theorem refl {R : α → α → Prop} (h : ∀ x, R x x) (x : Except ε α) : Agree R x x := by
  cases x with
  | error fault => exact .error fault fault
  | ok x => exact .ok (h x)

theorem symm {R' : β → α → Prop} (hR : ∀ x y, R x y → R' y x) {x : Except ε α} {y : Except ε' β} (h : Agree R x y) :
    Agree R' y x := by
  cases h with
  | ok h => exact .ok (hR _ _ h)
  | error fault fault' => exact .error fault' fault

theorem trans {ε'' : Type} {R : α → β → Prop} {S : β → γ → Prop} {T : α → γ → Prop} {x : Except ε α}
    {y : Except ε' β} {z : Except ε'' γ} (h : Agree R x y) (h' : Agree S y z)
    (hT : ∀ x y z, R x y → S y z → T x z) : Agree T x z := by
  cases h with
  | ok h =>
    cases h' with
    | ok h' => exact .ok (hT _ _ _ h h')
  | error fault =>
    cases h' with
    | error _ fault' => exact .error fault fault'

theorem bind {x : Except ε α} {y : Except ε' β} {f : α → Except ε α'} {g : β → Except ε' β'} (h : Agree R x y)
    (hfg : ∀ x y, R x y → Agree S (f x) (g y)) : Agree S (x >>= f) (y >>= g) := by
  cases h with
  | ok h => exact hfg _ _ h
  | error fault fault' => exact .error fault fault'

theorem map {x : Except ε α} {y : Except ε' β} {f : α → α'} {g : β → β'} (h : Agree R x y)
    (hfg : ∀ x y, R x y → S (f x) (g y)) : Agree S (f <$> x) (g <$> y) := by
  cases h with
  | ok h => exact .ok (hfg _ _ h)
  | error fault fault' => exact .error fault fault'

theorem imp {R' : α → β → Prop} (hR : ∀ x y, R x y → R' x y) {x : Except ε α} {y : Except ε' β} (h : Agree R x y) :
    Agree R' x y := by
  cases h with
  | ok h => exact .ok (hR _ _ h)
  | error fault fault' => exact .error fault fault'

theorem exists_ok {x : Except ε α} {y : Except ε' β} (h : Agree R x y) {a : α} (ha : x = .ok a) :
    ∃ b, y = .ok b ∧ R a b := by
  subst ha
  cases h with
  | ok h => exact ⟨_, rfl, h⟩

theorem of_exists {x : Except ε α} {y : Except ε' β} (hleft : ∀ a, x = .ok a → ∃ b, y = .ok b ∧ R a b)
    (hright : ∀ b, y = .ok b → ∃ a, x = .ok a) : Agree R x y := by
  cases x with
  | ok a =>
    obtain ⟨b, rfl, h⟩ := hleft a rfl
    exact .ok h
  | error fault =>
    cases y with
    | ok b =>
      obtain ⟨_, ⟨⟩⟩ := hright b rfl
    | error fault' => exact .error fault fault'

theorem congr_ok {δ δ' : Type} {x : Except ε α} {y : Except ε' β} {x' : Except δ α} {y' : Except δ' β}
    (h : Agree R x' y') (hx : ∀ a, x = .ok a ↔ x' = .ok a) (hy : ∀ b, y = .ok b ↔ y' = .ok b) : Agree R x y := by
  refine of_exists (fun a ha => ?_) fun b hb => ?_
  · obtain ⟨b, hb, hR⟩ := h.exists_ok ((hx a).mp ha)
    exact ⟨b, (hy b).mpr hb, hR⟩
  · have hflip : Agree (fun y x => R x y) y' x' := h.symm fun _ _ => id
    obtain ⟨a, ha, -⟩ := hflip.exists_ok ((hy b).mp hb)
    exact ⟨a, (hx a).mpr ha⟩

theorem mapM {f : α → Except ε α'} {g : β → Except ε' β'} {xs : List α} {ys : List β}
    (h : List.Forall₂ (fun x y => Agree S (f x) (g y)) xs ys) : Agree (List.Forall₂ S) (xs.mapM f) (ys.mapM g) := by
  induction h with
  | nil => exact .ok .nil
  | cons hxy _ ih =>
    rw [List.mapM_cons, List.mapM_cons]
    exact hxy.bind fun _ _ hS => ih.bind fun _ _ hall => .ok (.cons hS hall)

end Agree

theorem forall₂_of_getElem? {xs : List α} {ys : List β} (hlength : xs.length = ys.length)
    (h : ∀ (index : Nat) x y, xs[index]? = some x → ys[index]? = some y → R x y) : List.Forall₂ R xs ys := by
  refine List.forall₂_iff_get.mpr ⟨hlength, fun index hx hy => ?_⟩
  exact h index _ _ (List.getElem?_eq_getElem hx) (List.getElem?_eq_getElem hy)

theorem getElem?_of_forall₂ {xs : List α} {ys : List β} (h : List.Forall₂ R xs ys) :
    xs.length = ys.length ∧ ∀ (index : Nat) x y, xs[index]? = some x → ys[index]? = some y → R x y := by
  obtain ⟨hlength, hall⟩ := List.forall₂_iff_get.mp h
  refine ⟨hlength, fun index x y hx hy => ?_⟩
  obtain ⟨hindex, rfl⟩ := List.getElem?_eq_some_iff.mp hx
  obtain ⟨hindex', rfl⟩ := List.getElem?_eq_some_iff.mp hy
  exact hall index hindex hindex'

namespace Entries

structure Alike (R : α → β → Prop) (entries : Entries α) (others : Entries β) : Prop where
  names : ∀ name, name ∈ entries.names ↔ name ∈ others.names
  value : ∀ name x y, entries.get? name = some x → others.get? name = some y → R x y

namespace Alike

variable {entries : Entries α} {others : Entries β}

theorem refl {R : α → α → Prop} (h : ∀ x, R x x) (entries : Entries α) : entries.Alike R entries where
  names _ := Iff.rfl
  value name x y hx hy := by
    obtain rfl : x = y := Option.some.inj (hx.symm.trans hy)
    exact h x

theorem symm {R' : β → α → Prop} (hR : ∀ x y, R x y → R' y x) (h : entries.Alike R others) :
    others.Alike R' entries where
  names name := (h.names name).symm
  value name y x hy hx := hR _ _ (h.value name x y hx hy)

theorem trans {R : α → β → Prop} {S : β → γ → Prop} {T : α → γ → Prop} {thirds : Entries γ}
    (h : entries.Alike R others) (h' : others.Alike S thirds) (hT : ∀ x y z, R x y → S y z → T x z) :
    entries.Alike T thirds where
  names name := (h.names name).trans (h'.names name)
  value name x z hx hz := by
    obtain ⟨y, hy⟩ := exists_get? ((h.names name).mp (mem_names_of_get? hx))
    exact hT x y z (h.value name x y hx hy) (h'.value name y z hy hz)

theorem imp {R' : α → β → Prop} (hR : ∀ x y, R x y → R' x y) (h : entries.Alike R others) :
    entries.Alike R' others where
  names := h.names
  value name x y hx hy := hR _ _ (h.value name x y hx hy)

theorem size_eq (h : entries.Alike R others) : entries.size = others.size :=
  ((List.perm_ext_iff_of_nodup entries.distinct others.distinct).mpr h.names).length_eq

theorem of_perm {R : α → α → Prop} (hR : ∀ x, R x x) {entries others : Entries α}
    (h : entries.toList.Perm others.toList) : entries.Alike R others where
  names name := by
    rw [← map_fst_toList, ← map_fst_toList]
    exact (h.map Prod.fst).mem_iff
  value name x y hx hy := by
    have hmem := h.mem_iff.mp (get?_eq_some_iff.mp hx)
    obtain rfl : x = y := Option.some.inj ((get?_eq_some_iff.mpr hmem).symm.trans hy)
    exact hR x

theorem perm {entries others : Entries α} (h : entries.Alike Eq others) : entries.toList.Perm others.toList := by
  refine perm_of_names h.names fun entry hentry other hother hname => ?_
  have hother' := get?_of_mem_toList hother
  rw [← hname] at hother'
  exact h.value entry.1 _ _ (get?_of_mem_toList hentry) hother'

theorem exists_traverse {f : String → α → Except ε α'} {g : String → β → Except ε' β'}
    (h : entries.Alike R others) (hfg : ∀ name x y, R x y → Agree S (f name x) (g name y)) {result : Entries α'}
    (hresult : entries.traverse f = .ok result) : ∃ result', others.traverse g = .ok result' := by
  refine exists_traverse_iff.mpr fun other hother => ?_
  obtain ⟨x, hx⟩ := exists_get? ((h.names other.1).mpr (mem_names_of_mem hother))
  obtain ⟨y, hy⟩ := exists_traverse_iff.mp ⟨result, hresult⟩ _ (get?_eq_some_iff.mp hx)
  obtain ⟨z, hz, -⟩ := (hfg _ _ _ (h.value _ _ _ hx (get?_of_mem_toList hother))).exists_ok hy
  exact ⟨z, hz⟩

theorem traverse {f : String → α → Except ε α'} {g : String → β → Except ε' β'} (h : entries.Alike R others)
    (hfg : ∀ name x y, R x y → Agree S (f name x) (g name y)) :
    Agree (Alike S) (entries.traverse f) (others.traverse g) := by
  refine .of_exists (fun result hresult => ?_) fun result hresult => ?_
  · obtain ⟨result', hresult'⟩ := h.exists_traverse hfg hresult
    refine ⟨result', hresult', ⟨fun name => ?_, fun name x y hx hy => ?_⟩⟩
    · rw [names_of_traverse hresult, names_of_traverse hresult', h.names]
    · obtain ⟨a, ha, hx⟩ := get?_of_traverse hresult hx
      obtain ⟨b, hb, hy⟩ := get?_of_traverse hresult' hy
      obtain ⟨z, hz, hS⟩ := (hfg name a b (h.value name a b ha hb)).exists_ok hx
      rwa [Except.ok.inj (hy.symm.trans hz)]
  -- A run over the others succeeds as well, by the same argument with the sides changed.
  · have hflip : others.Alike (fun y x => R x y) entries := h.symm fun _ _ => id
    exact hflip.exists_traverse (S := fun y x => S x y)
      (fun name y x hR => (hfg name x y hR).symm fun _ _ => id) hresult

theorem map {f : α → α'} {g : β → β'} (h : entries.Alike R others) (hfg : ∀ x y, R x y → S (f x) (g y)) :
    (entries.map f).Alike S (others.map g) where
  names := h.names
  value name a b ha hb := by
    rw [get?_map, Option.map_eq_some_iff] at ha hb
    obtain ⟨x, hx, rfl⟩ := ha
    obtain ⟨y, hy, rfl⟩ := hb
    exact hfg x y (h.value name x y hx hy)

theorem update (h : entries.Alike R others) (name : String) {x : α} {y : β} (hxy : R x y) :
    (entries.update name fun _ => x).Alike R (others.update name fun _ => y) where
  names key := by rw [mem_names_update, mem_names_update, h.names]
  value key a b ha hb := by
    rw [get?_update] at ha hb
    split at ha
    · next hname =>
      rw [if_pos hname] at hb
      rwa [← Option.some.inj ha, ← Option.some.inj hb]
    · next hname =>
      rw [if_neg hname] at hb
      exact h.value key a b ha hb

end Alike

end Entries

end AttributeCodec
