import AttributeCodec.Entries
import Mathlib.Data.List.Forall2

namespace AttributeCodec

variable {α β γ ε ε' : Type}

@[simp] theorem bind_eq_ok {x : Except ε α} {f : α → Except ε β} {b : β} :
    x >>= f = .ok b ↔ ∃ a, x = .ok a ∧ f a = .ok b := by
  cases x with
  | error fault => simp [bind, Except.bind]
  | ok a => simp [bind, Except.bind]

theorem bind_eq_error {x : Except ε α} {f : α → Except ε β} {fault : ε} :
    x >>= f = .error fault ↔ x = .error fault ∨ ∃ a, x = .ok a ∧ f a = .error fault := by
  cases x with
  | error other => simp [bind, Except.bind]
  | ok a => simp [bind, Except.bind]

@[simp] theorem pure_eq_ok {a b : α} : (pure a : Except ε α) = .ok b ↔ a = b := by
  simp [pure, Except.pure]

@[simp] theorem map_eq_ok {f : α → β} {x : Except ε α} {b : β} :
    f <$> x = .ok b ↔ ∃ a, x = .ok a ∧ f a = b := by
  cases x <;> simp [Functor.map, Except.map]

@[simp] theorem map_eq_error {f : α → β} {x : Except ε α} {fault : ε} :
    f <$> x = .error fault ↔ x = .error fault := by
  cases x <;> simp [Functor.map, Except.map]

@[simp] theorem throw_ne_ok {fault : ε} {a : α} : (throw fault : Except ε α) ≠ .ok a := by
  simp [throw, throwThe, MonadExceptOf.throw]

@[simp] theorem mapError_eq_ok {x : Except ε α} {f : ε → ε'} {a : α} :
    x.mapError f = .ok a ↔ x = .ok a := by
  cases x <;> simp [Except.mapError]

theorem exists_error_iff {x : Except ε α} : (∃ fault, x = .error fault) ↔ ∀ a, x ≠ .ok a := by
  cases x <;> simp

theorem mapM_eq_ok_iff {f : α → Except ε β} {xs : List α} {ys : List β} :
    xs.mapM f = .ok ys ↔ List.Forall₂ (fun x y => f x = .ok y) xs ys := by
  induction xs generalizing ys with
  | nil => cases ys <;> simp [pure, Except.pure]
  | cons x xs ih =>
    simp only [List.mapM_cons, bind_eq_ok, pure_eq_ok, List.forall₂_cons_left_iff, ih]
    constructor
    · rintro ⟨y, hy, ys', hys, rfl⟩
      exact ⟨y, ys', hy, hys, rfl⟩
    · rintro ⟨y, ys', hy, hys, rfl⟩
      exact ⟨y, hy, ys', hys, rfl⟩

theorem forall₂_iff_eq_map {R : α → β → Prop} {g : β → α} {xs : List α} {ys : List β}
    (h : ∀ y ∈ ys, ∀ x, R x y ↔ x = g y) : List.Forall₂ R xs ys ↔ xs = ys.map g := by
  induction ys generalizing xs with
  | nil => rw [List.forall₂_nil_right_iff, List.map_nil]
  | cons y ys ih =>
    rw [List.forall_mem_cons] at h
    simp only [List.forall₂_cons_right_iff, h.1, ih h.2, List.map_cons]
    constructor
    · rintro ⟨x, rest, rfl, rfl, rfl⟩
      rfl
    · rintro rfl
      exact ⟨_, _, rfl, rfl, rfl⟩

theorem mapM_eq_ok_iff_eq_map {f : α → Except ε β} {g : β → α} {xs : List α} {ys : List β}
    (h : ∀ y ∈ ys, ∀ x, f x = .ok y ↔ x = g y) : xs.mapM f = .ok ys ↔ xs = ys.map g := by
  rw [mapM_eq_ok_iff, forall₂_iff_eq_map h]

theorem exists_mapM_iff {f : α → Except ε β} {xs : List α} :
    (∃ ys, xs.mapM f = .ok ys) ↔ ∀ x ∈ xs, ∃ y, f x = .ok y := by
  induction xs with
  | nil => simp
  | cons x xs ih =>
    simp only [List.mapM_cons, bind_eq_ok, pure_eq_ok, List.forall_mem_cons, ← ih]
    constructor
    · rintro ⟨_, y, hy, ys, hys, rfl⟩
      exact ⟨⟨y, hy⟩, ys, hys⟩
    · rintro ⟨⟨y, hy⟩, ys, hys⟩
      exact ⟨_, y, hy, ys, hys, rfl⟩

theorem map_eq_map_of_forall₂ {R : α → β → Prop} {g : α → γ} {h : β → γ} {xs : List α} {ys : List β}
    (hall : List.Forall₂ R xs ys) (heq : ∀ x ∈ xs, ∀ y, R x y → g x = h y) : xs.map g = ys.map h := by
  induction hall with
  | nil => rfl
  | cons hxy _ ih =>
    rw [List.forall_mem_cons] at heq
    rw [List.map_cons, List.map_cons, heq.1 _ hxy, ih heq.2]

theorem forall_mem_of_forall₂ {R : α → β → Prop} {p : β → Prop} {xs : List α} {ys : List β}
    (hall : List.Forall₂ R xs ys) (h : ∀ x ∈ xs, ∀ y, R x y → p y) : ∀ y ∈ ys, p y := by
  induction hall with
  | nil => simp
  | cons hxy _ ih =>
    rw [List.forall_mem_cons] at h ⊢
    exact ⟨h.1 _ hxy, ih h.2⟩

theorem exists_mem_of_forall₂ {R : α → β → Prop} {xs : List α} {ys : List β} (hall : List.Forall₂ R xs ys) :
    ∀ x ∈ xs, ∃ y ∈ ys, R x y := by
  induction hall with
  | nil => simp
  | cons hxy _ ih =>
    refine List.forall_mem_cons.mpr ⟨⟨_, List.mem_cons_self, hxy⟩, fun x hx => ?_⟩
    obtain ⟨y, hy, hR⟩ := ih x hx
    exact ⟨y, List.mem_cons_of_mem _ hy, hR⟩

theorem forall₂_range_iff {α : Type} {R : Nat → α → Prop} {length : Nat} {items : List α} :
    List.Forall₂ R (List.range length) items ↔
      items.length = length ∧ ∀ index item, items[index]? = some item → R index item := by
  rw [List.forall₂_iff_get]
  simp only [List.length_range, List.get_eq_getElem, List.getElem_range]
  constructor
  · rintro ⟨rfl, h⟩
    refine ⟨rfl, fun index item hitem => ?_⟩
    obtain ⟨hindex, rfl⟩ := List.getElem?_eq_some_iff.mp hitem
    exact h index hindex hindex
  · rintro ⟨rfl, h⟩
    exact ⟨rfl, fun index _ hindex => h index _ (List.getElem?_eq_getElem hindex)⟩

theorem forall₂_fst_iff {α : Type} {R : String → α → Prop} {names : List String} {entries : List (String × α)} :
    List.Forall₂ (fun name entry => name = entry.1 ∧ R name entry.2) names entries ↔
      names = entries.map Prod.fst ∧ ∀ entry ∈ entries, R entry.1 entry.2 := by
  induction entries generalizing names with
  | nil => simp
  | cons entry rest ih =>
    simp only [List.forall₂_cons_right_iff, ih, List.map_cons, List.forall_mem_cons]
    constructor
    · rintro ⟨_, _, ⟨rfl, hentry⟩, ⟨rfl, hrest⟩, rfl⟩
      exact ⟨rfl, hentry, hrest⟩
    · rintro ⟨rfl, hentry, hrest⟩
      exact ⟨_, _, ⟨rfl, hentry⟩, ⟨rfl, hrest⟩, rfl⟩

theorem map_eq_self {f : α → α} {xs : List α} (h : ∀ x ∈ xs, f x = x) : xs.map f = xs :=
  (List.map_congr_left h).trans (List.map_id xs)

theorem mapM_eq_ok_map {f : α → Except ε β} {g : α → β} {xs : List α} (h : ∀ x ∈ xs, f x = .ok (g x)) :
    xs.mapM f = .ok (xs.map g) := by
  rw [mapM_eq_ok_iff, List.forall₂_map_right_iff, List.forall₂_same]
  exact h

theorem mapM_eq_error {f : α → Except ε β} {xs : List α} {fault : ε} (h : xs.mapM f = .error fault) :
    ∃ x ∈ xs, f x = .error fault := by
  induction xs with
  | nil => simp [pure, Except.pure] at h
  | cons x xs ih =>
    rw [List.mapM_cons] at h
    cases hx : f x with
    | error other =>
      rw [hx] at h
      cases h
      exact ⟨x, List.mem_cons_self, hx⟩
    | ok y =>
      cases hxs : xs.mapM f with
      | error other =>
        rw [hx, hxs] at h
        cases h
        obtain ⟨x', hmem, hfault⟩ := ih hxs
        exact ⟨x', List.mem_cons_of_mem x hmem, hfault⟩
      | ok ys =>
        rw [hx, hxs] at h
        cases h

theorem mapM_eq_map_mapM {f : α → Except ε β} {g : α → Except ε γ} {h : β → γ} {xs : List α}
    (hall : ∀ x ∈ xs, g x = h <$> f x) : xs.mapM g = List.map h <$> xs.mapM f := by
  induction xs with
  | nil => rfl
  | cons x xs ih =>
    obtain ⟨hx, hxs⟩ := List.forall_mem_cons.mp hall
    rw [List.mapM_cons, List.mapM_cons, hx, ih hxs]
    cases f x with
    | error fault => rfl
    | ok y => cases xs.mapM f <;> rfl

theorem exists_mapM_mapM {f : α → Except ε β} {g : β → Except ε' γ} {h : α → γ} {xs : List α}
    (hall : ∀ x ∈ xs, ∃ y, f x = .ok y ∧ g y = .ok (h x)) :
    ∃ ys, xs.mapM f = .ok ys ∧ ys.mapM g = .ok (xs.map h) := by
  induction xs with
  | nil => exact ⟨[], rfl, rfl⟩
  | cons x xs ih =>
    obtain ⟨⟨y, hy, hback⟩, hrest⟩ := List.forall_mem_cons.mp hall
    obtain ⟨ys, hys, hbacks⟩ := ih hrest
    refine ⟨y :: ys, ?_, ?_⟩
    · rw [List.mapM_cons, hy, hys]
      rfl
    · rw [List.mapM_cons, hback, hbacks]
      rfl

namespace Fields

variable {names : List String}

def traverse (f : String → α → Except ε β) {names : List String} :
    Fields α names → Except ε (Fields β names)
  | .nil => return .nil
  | .cons name value rest => return .cons name (← f name value) (← rest.traverse f)

theorem toList_map (f : α → β) (fields : Fields α names) :
    (fields.map f).toList = fields.toList.map fun entry => (entry.1, f entry.2) := by
  induction fields with
  | nil => rfl
  | cons name value rest ih => simp [map, toList, ih]

theorem exists_map_eq {f : α → β} {fields : Fields β names}
    (h : ∀ entry ∈ fields.toList, ∃ a, f a = entry.2) : ∃ others : Fields α names, others.map f = fields := by
  induction fields with
  | nil => exact ⟨.nil, rfl⟩
  | cons name value rest ih =>
    obtain ⟨⟨a, rfl⟩, hrest⟩ := List.forall_mem_cons.mp h
    obtain ⟨others, rfl⟩ := ih hrest
    exact ⟨.cons name a others, rfl⟩

theorem traverse_eq_ok_iff {f : String → α → Except ε β} {fields : Fields α names}
    {others : Fields β names} :
    fields.traverse f = .ok others ↔
      List.Forall₂ (fun x y => x.1 = y.1 ∧ f x.1 x.2 = .ok y.2) fields.toList others.toList := by
  induction fields with
  | nil => cases others; simp [traverse, toList]
  | cons name value rest ih =>
    cases others with
    | cons _ value' rest' =>
      simp only [traverse, bind_eq_ok, pure_eq_ok, toList, List.forall₂_cons, true_and, ← ih]
      constructor
      · rintro ⟨y, hy, ys, hys, heq⟩
        cases heq
        exact ⟨hy, hys⟩
      · rintro ⟨hy, hys⟩
        exact ⟨value', hy, rest', hys, rfl⟩

theorem exists_traverse_iff {f : String → α → Except ε β} {fields : Fields α names} :
    (∃ others, fields.traverse f = .ok others) ↔ ∀ x ∈ fields.toList, ∃ y, f x.1 x.2 = .ok y := by
  induction fields with
  | nil => simp [traverse, toList]
  | cons name value rest ih =>
    simp only [traverse, bind_eq_ok, pure_eq_ok, toList, List.forall_mem_cons, ← ih]
    constructor
    · rintro ⟨_, y, hy, ys, hys, rfl⟩
      exact ⟨⟨y, hy⟩, ys, hys⟩
    · rintro ⟨⟨y, hy⟩, ys, hys⟩
      exact ⟨_, y, hy, ys, hys, rfl⟩

theorem traverse_map {f : String → β → Except ε γ} (g : α → β) (fields : Fields α names) :
    (fields.map g).traverse f = fields.traverse fun name value => f name (g value) := by
  induction fields with
  | nil => rfl
  | cons name value rest ih => rw [map, traverse, ih, traverse]

theorem traverse_eq_ok_map {f : String → α → Except ε β} {g : α → β} {fields : Fields α names}
    (h : ∀ x ∈ fields.toList, f x.1 x.2 = .ok (g x.2)) : fields.traverse f = .ok (fields.map g) := by
  rw [traverse_eq_ok_iff, toList_map, List.forall₂_map_right_iff, List.forall₂_same]
  exact fun x hx => ⟨rfl, h x hx⟩

theorem traverse_eq_error {f : String → α → Except ε β} {fields : Fields α names} {fault : ε}
    (h : fields.traverse f = .error fault) : ∃ x ∈ fields.toList, f x.1 x.2 = .error fault := by
  induction fields with
  | nil => simp [traverse, pure, Except.pure] at h
  | cons name value rest ih =>
    rw [traverse] at h
    cases hvalue : f name value with
    | error other =>
      rw [hvalue] at h
      cases h
      exact ⟨_, List.mem_cons_self, hvalue⟩
    | ok y =>
      cases hrest : rest.traverse f with
      | error other =>
        rw [hvalue, hrest] at h
        cases h
        obtain ⟨x, hmem, hfault⟩ := ih hrest
        exact ⟨x, List.mem_cons_of_mem _ hmem, hfault⟩
      | ok others =>
        rw [hvalue, hrest] at h
        cases h

theorem traverse_eq_error_of_append {f : String → α → Except ε β} {fields : Fields α names}
    {before after : List (String × α)} {entry : String × α} {fault : ε}
    (hlist : fields.toList = before ++ entry :: after)
    (hbefore : ∀ earlier ∈ before, ∃ y, f earlier.1 earlier.2 = .ok y) (hentry : f entry.1 entry.2 = .error fault) :
    fields.traverse f = .error fault := by
  induction fields generalizing before with
  | nil => simp [toList] at hlist
  | cons name value rest ih =>
    cases before with
    | nil =>
      obtain ⟨rfl, -⟩ := List.cons.inj hlist
      rw [traverse, hentry]
      rfl
    | cons earlier before =>
      obtain ⟨rfl, hrest⟩ := List.cons.inj hlist
      obtain ⟨⟨y, hy⟩, hbefore⟩ := List.forall_mem_cons.mp hbefore
      rw [traverse, hy, ih hrest hbefore]
      rfl

theorem traverse_eq_map_traverse {f : String → α → Except ε β} {g : String → α → Except ε γ} {h : β → γ}
    {fields : Fields α names} (hall : ∀ x ∈ fields.toList, g x.1 x.2 = h <$> f x.1 x.2) :
    fields.traverse g = Fields.map h <$> fields.traverse f := by
  induction fields with
  | nil => rfl
  | cons name value rest ih =>
    obtain ⟨hvalue, hrest⟩ := List.forall_mem_cons.mp hall
    rw [traverse, traverse, hvalue, ih hrest]
    cases f name value with
    | error fault => rfl
    | ok y => cases rest.traverse f <;> rfl

theorem exists_traverse_traverse {f : String → α → Except ε β} {g : String → β → Except ε' γ} {h : α → γ}
    {fields : Fields α names}
    (hall : ∀ x ∈ fields.toList, ∃ y, f x.1 x.2 = .ok y ∧ g x.1 y = .ok (h x.2)) :
    ∃ others, fields.traverse f = .ok others ∧ others.traverse g = .ok (fields.map h) := by
  induction fields with
  | nil => exact ⟨.nil, rfl, rfl⟩
  | cons name value rest ih =>
    obtain ⟨⟨y, hy, hback⟩, hrest⟩ := List.forall_mem_cons.mp hall
    obtain ⟨ys, hys, hbacks⟩ := ih hrest
    refine ⟨.cons name y ys, ?_, ?_⟩
    · rw [traverse, hy, hys]
      rfl
    · rw [traverse, hback, hbacks]
      rfl

end Fields

namespace Entries

def map (f : α → β) (entries : Entries α) : Entries β :=
  ⟨entries.names, entries.distinct, entries.fields.map f⟩

def traverse (f : String → α → Except ε β) (entries : Entries α) : Except ε (Entries β) :=
  return ⟨entries.names, entries.distinct, ← entries.fields.traverse f⟩

theorem toList_map (f : α → β) (entries : Entries α) :
    (entries.map f).toList = entries.toList.map fun entry => (entry.1, f entry.2) :=
  entries.fields.toList_map f

theorem forall_mem_map {f : α → β} {entries : Entries α} {p : β → Prop} :
    (∀ entry ∈ (entries.map f).toList, p entry.2) ↔ ∀ entry ∈ entries.toList, p (f entry.2) := by
  rw [toList_map, List.forall_mem_map]

theorem map_map (g : β → γ) (f : α → β) (entries : Entries α) :
    (entries.map f).map g = entries.map (g ∘ f) := by
  apply toList_injective
  rw [toList_map, toList_map, toList_map, List.map_map]
  rfl

theorem map_congr_left {f g : α → β} {entries : Entries α}
    (h : ∀ entry ∈ entries.toList, f entry.2 = g entry.2) : entries.map f = entries.map g := by
  apply toList_injective
  rw [toList_map, toList_map]
  exact List.map_congr_left fun entry hentry => congrArg (entry.1, ·) (h entry hentry)

theorem exists_map_eq {f : α → β} {entries : Entries β} (h : ∀ entry ∈ entries.toList, ∃ a, f a = entry.2) :
    ∃ others : Entries α, others.map f = entries := by
  have hfields : ∃ others : Fields α entries.names, others.map f = entries.fields := Fields.exists_map_eq h
  obtain ⟨others, hothers⟩ := hfields
  exact ⟨⟨entries.names, entries.distinct, others⟩, by rw [map, hothers]⟩

theorem map_eq_self {f : α → α} {entries : Entries α} (h : ∀ entry ∈ entries.toList, f entry.2 = entry.2) :
    entries.map f = entries := by
  apply toList_injective
  rw [toList_map]
  exact AttributeCodec.map_eq_self fun entry hentry => Prod.ext rfl (h entry hentry)

theorem traverse_eq_ok_iff {f : String → α → Except ε β} {entries : Entries α} {others : Entries β} :
    entries.traverse f = .ok others ↔
      List.Forall₂ (fun x y => x.1 = y.1 ∧ f x.1 x.2 = .ok y.2) entries.toList others.toList := by
  simp only [traverse, bind_eq_ok, pure_eq_ok]
  constructor
  · rintro ⟨fields, hfields, rfl⟩
    exact Fields.traverse_eq_ok_iff.mp hfields
  · intro hall
    obtain ⟨names, distinct, fields⟩ := entries
    obtain ⟨names', distinct', fields'⟩ := others
    have hn : names = names' := by
      rw [← fields.map_fst_toList, ← fields'.map_fst_toList]
      exact map_eq_map_of_forall₂ hall fun x _ y hxy => hxy.1
    subst hn
    exact ⟨fields', Fields.traverse_eq_ok_iff.mpr hall, rfl⟩

theorem names_of_traverse {f : String → α → Except ε β} {entries : Entries α} {others : Entries β}
    (h : entries.traverse f = .ok others) : others.names = entries.names := by
  simp only [traverse, bind_eq_ok, pure_eq_ok] at h
  obtain ⟨fields, -, rfl⟩ := h
  rfl

theorem traverse_eq_ok_iff_eq_map {f : String → α → Except ε β} {g : β → α} {entries : Entries α}
    {others : Entries β} (h : ∀ y ∈ others.toList, ∀ x, f y.1 x = .ok y.2 ↔ x = g y.2) :
    entries.traverse f = .ok others ↔ entries = others.map g := by
  rw [traverse_eq_ok_iff, forall₂_iff_eq_map (g := fun y => (y.1, g y.2)), ← toList_map]
  · exact ⟨fun heq => toList_injective heq, fun heq => heq ▸ rfl⟩
  · rintro y hy ⟨name, x⟩
    rw [Prod.mk.injEq, ← h y hy x]
    constructor
    · rintro ⟨rfl, hx⟩
      exact ⟨rfl, hx⟩
    · rintro ⟨rfl, hx⟩
      exact ⟨rfl, hx⟩

theorem exists_traverse_iff {f : String → α → Except ε β} {entries : Entries α} :
    (∃ others, entries.traverse f = .ok others) ↔
      ∀ x ∈ entries.toList, ∃ y, f x.1 x.2 = .ok y := by
  simp only [toList, ← Fields.exists_traverse_iff, traverse, bind_eq_ok, pure_eq_ok]
  constructor
  · rintro ⟨_, fields, hfields, rfl⟩
    exact ⟨fields, hfields⟩
  · rintro ⟨fields, hfields⟩
    exact ⟨_, fields, hfields, rfl⟩

theorem traverse_map {f : String → β → Except ε γ} (g : α → β) (entries : Entries α) :
    (entries.map g).traverse f = entries.traverse fun name value => f name (g value) := by
  rw [traverse, map, Fields.traverse_map, traverse]

theorem traverse_eq_error {f : String → α → Except ε β} {entries : Entries α} {fault : ε}
    (h : entries.traverse f = .error fault) : ∃ x ∈ entries.toList, f x.1 x.2 = .error fault := by
  cases hfields : entries.fields.traverse f with
  | error other =>
    rw [traverse, hfields] at h
    cases h
    exact Fields.traverse_eq_error hfields
  | ok others =>
    rw [traverse, hfields] at h
    cases h

theorem traverse_eq_map_traverse {f : String → α → Except ε β} {g : String → α → Except ε γ} {h : β → γ}
    {entries : Entries α} (hall : ∀ x ∈ entries.toList, g x.1 x.2 = h <$> f x.1 x.2) :
    entries.traverse g = Entries.map h <$> entries.traverse f := by
  rw [traverse, traverse, Fields.traverse_eq_map_traverse hall]
  cases entries.fields.traverse f <;> rfl

theorem exists_traverse_traverse {f : String → α → Except ε β} {g : String → β → Except ε' γ} {h : α → γ}
    {entries : Entries α}
    (hall : ∀ x ∈ entries.toList, ∃ y, f x.1 x.2 = .ok y ∧ g x.1 y = .ok (h x.2)) :
    ∃ others, entries.traverse f = .ok others ∧ others.traverse g = .ok (entries.map h) := by
  obtain ⟨fields, hfields, hback⟩ := Fields.exists_traverse_traverse hall
  refine ⟨⟨entries.names, entries.distinct, fields⟩, ?_, ?_⟩
  · rw [traverse, hfields]
    rfl
  · rw [traverse, hback]
    rfl

theorem map_eq_map_of_traverse {f : String → α → Except ε β} {g : α → γ} {h : β → γ}
    {entries : Entries α} {others : Entries β} (hall : entries.traverse f = .ok others)
    (heq : ∀ x ∈ entries.toList, ∀ y, f x.1 x.2 = .ok y → g x.2 = h y) :
    entries.map g = others.map h := by
  apply toList_injective
  rw [toList_map, toList_map]
  refine map_eq_map_of_forall₂ (traverse_eq_ok_iff.mp hall) fun x hx y hxy => ?_
  exact Prod.ext hxy.1 (heq x hx y.2 hxy.2)

end Entries

end AttributeCodec
