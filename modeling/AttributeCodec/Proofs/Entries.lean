import AttributeCodec.Proofs.Traversal
import Mathlib.Data.List.Dedup

namespace AttributeCodec

variable {α β : Type}

theorem lookup_cons_of_ne {key name : String} (h : key ≠ name) (value : α) (rest : List (String × α)) :
    ((name, value) :: rest).lookup key = rest.lookup key := by
  rw [List.lookup_cons, beq_false_of_ne h]

theorem lookup_of_mem {key : String} {value : α} {entries : List (String × α)}
    (hnodup : (entries.map Prod.fst).Nodup) (h : (key, value) ∈ entries) : entries.lookup key = some value := by
  induction entries with
  | nil => cases h
  | cons entry rest ih =>
    obtain ⟨hentry, hrest⟩ := List.nodup_cons.mp hnodup
    rcases List.mem_cons.mp h with rfl | h
    · exact List.lookup_cons_self
    · have hne : key ≠ entry.1 := fun heq => hentry (heq ▸ List.mem_map_of_mem h)
      rw [lookup_cons_of_ne hne]
      exact ih hrest h

theorem Fields.get?_eq_lookup {names : List String} (fields : Fields α names) (key : String) :
    fields.get? key = fields.toList.lookup key := by
  induction fields with
  | nil => rfl
  | cons name value rest ih =>
    rw [get?, toList]
    split
    · next h => rw [h, List.lookup_cons_self]
    · next h => rw [lookup_cons_of_ne (Ne.symm h), ih]

theorem Fields.get?_map (f : α → β) {names : List String} (fields : Fields α names) (key : String) :
    (fields.map f).get? key = (fields.get? key).map f := by
  induction fields with
  | nil => rfl
  | cons name value rest ih =>
    rw [map, get?, get?, ih]
    split <;> rfl

namespace Entries

theorem map_fst_toList (entries : Entries α) : entries.toList.map Prod.fst = entries.names :=
  entries.fields.map_fst_toList

theorem mem_names_iff {entries : Entries α} {name : String} :
    name ∈ entries.names ↔ ∃ entry ∈ entries.toList, entry.1 = name := by
  rw [← map_fst_toList, List.mem_map]

theorem mem_names_of_mem {entries : Entries α} {entry : String × α} (h : entry ∈ entries.toList) :
    entry.1 ∈ entries.names :=
  mem_names_iff.mpr ⟨entry, h, rfl⟩

theorem nodup_toList (entries : Entries α) : entries.toList.Nodup :=
  List.Nodup.of_map Prod.fst entries.nodup_map_fst_toList

theorem perm_of_names {entries others : Entries α} (hnames : ∀ name, name ∈ entries.names ↔ name ∈ others.names)
    (h : ∀ entry ∈ entries.toList, ∀ other ∈ others.toList, entry.1 = other.1 → entry.2 = other.2) :
    entries.toList.Perm others.toList := by
  refine (List.perm_ext_iff_of_nodup entries.nodup_toList others.nodup_toList).mpr fun entry => ?_
  refine ⟨fun hentry => ?_, fun hentry => ?_⟩
  · obtain ⟨other, hother, hname⟩ := mem_names_iff.mp ((hnames entry.1).mp (mem_names_of_mem hentry))
    rwa [Prod.ext hname.symm (h entry hentry other hother hname.symm)]
  · obtain ⟨other, hother, hname⟩ := mem_names_iff.mp ((hnames entry.1).mpr (mem_names_of_mem hentry))
    rwa [← Prod.ext hname (h other hother entry hentry hname)]

theorem size_eq_dedup {entries : Entries α} {names : List String}
    (h : ∀ name, name ∈ entries.names ↔ name ∈ names) : entries.size = names.dedup.length := by
  refine ((List.perm_ext_iff_of_nodup entries.distinct names.nodup_dedup).mpr fun name => ?_).length_eq
  rw [h, List.mem_dedup]

theorem get?_eq_some_iff {entries : Entries α} {key : String} {value : α} :
    entries.get? key = some value ↔ (key, value) ∈ entries.toList := by
  rw [get?, Fields.get?_eq_lookup]
  constructor
  · intro h
    obtain ⟨before, after, heq, -⟩ := List.lookup_eq_some_iff.mp h
    rw [toList, heq]
    exact List.mem_append_right _ List.mem_cons_self
  · exact lookup_of_mem entries.nodup_map_fst_toList

theorem get?_of_mem_toList {entries : Entries α} {entry : String × α} (h : entry ∈ entries.toList) :
    entries.get? entry.1 = some entry.2 :=
  get?_eq_some_iff.mpr h

theorem exists_get? {entries : Entries α} {name : String} (h : name ∈ entries.names) :
    ∃ x, entries.get? name = some x := by
  obtain ⟨entry, hentry, rfl⟩ := mem_names_iff.mp h
  exact ⟨entry.2, get?_eq_some_iff.mpr hentry⟩

theorem mem_names_of_get? {entries : Entries α} {name : String} {x : α} (h : entries.get? name = some x) :
    name ∈ entries.names :=
  mem_names_of_mem (get?_eq_some_iff.mp h)

theorem get?_of_traverse {f : String → α → Except ε β} {entries : Entries α} {others : Entries β}
    (h : entries.traverse f = .ok others) {name : String} {y : β} (hy : others.get? name = some y) :
    ∃ x, entries.get? name = some x ∧ f name x = .ok y := by
  have hall := forall_mem_of_forall₂ (traverse_eq_ok_iff.mp h)
    (p := fun entry => ∃ x, entries.get? entry.1 = some x ∧ f entry.1 x = .ok entry.2) ?_
  · exact hall _ (get?_eq_some_iff.mp hy)
  · rintro ⟨name, x⟩ hentry ⟨_, y⟩ ⟨rfl, hstep⟩
    exact ⟨x, get?_eq_some_iff.mpr hentry, hstep⟩

theorem get?_map (f : α → β) (entries : Entries α) (name : String) :
    (entries.map f).get? name = (entries.get? name).map f :=
  entries.fields.get?_map f name

theorem lookup_updated (name key : String) (f : Option α → α) (entries : List (String × α)) :
    (updated name f entries).lookup key =
      if name = key then some (f (entries.lookup name)) else entries.lookup key := by
  induction entries with
  | nil =>
    rw [updated]
    split
    · next h => rw [h, List.lookup_cons_self, List.lookup_nil]
    · next h => rw [lookup_cons_of_ne (Ne.symm h)]
  | cons entry rest ih =>
    obtain ⟨other, value⟩ := entry
    rw [updated]
    split
    · next hname =>
      subst hname
      split
      · next h => rw [h, List.lookup_cons_self, List.lookup_cons_self]
      · next h => rw [lookup_cons_of_ne (Ne.symm h), lookup_cons_of_ne (Ne.symm h)]
    · next hname =>
      by_cases hkey : key = other
      · subst hkey
        rw [List.lookup_cons_self, List.lookup_cons_self, if_neg (Ne.symm hname)]
      · rw [lookup_cons_of_ne hkey, ih, lookup_cons_of_ne hkey, lookup_cons_of_ne (Ne.symm hname)]

theorem get?_update (entries : Entries α) (name key : String) (f : Option α → α) :
    (entries.update name f).get? key =
      if name = key then some (f (entries.get? name)) else entries.get? key := by
  simp only [get?, Fields.get?_eq_lookup]
  rw [← toList, toList_update, lookup_updated]
  rfl

theorem mem_names_update {entries : Entries α} {name key : String} {f : Option α → α} :
    key ∈ (entries.update name f).names ↔ key = name ∨ key ∈ entries.names := by
  rw [← map_fst_toList, toList_update, mem_map_fst_updated, map_fst_toList]

end Entries

theorem Entries.updated_of_not_mem {name : String} (f : Option α → α) {entries : List (String × α)}
    (h : name ∉ entries.map Prod.fst) : updated name f entries = entries ++ [(name, f none)] := by
  induction entries with
  | nil => rfl
  | cons entry rest ih =>
    rw [List.map_cons, List.mem_cons, not_or] at h
    rw [updated, if_neg (Ne.symm h.1), ih h.2, List.cons_append]

namespace SortedEntries

def map (f : α → β) (entries : SortedEntries α) : SortedEntries β :=
  ⟨entries.names, entries.ascending, entries.fields.map f⟩

theorem toList_map (f : α → β) (entries : SortedEntries α) :
    (entries.map f).toList = entries.toList.map fun entry => (entry.1, f entry.2) :=
  entries.fields.toList_map f

theorem map_id (entries : SortedEntries α) : entries.map id = entries := by
  apply toList_injective
  rw [toList_map]
  exact List.map_id _

theorem pairwise_toList (entries : SortedEntries α) : entries.toList.Pairwise (·.1 < ·.1) :=
  List.pairwise_map.mp entries.pairwise_map_fst_toList

theorem inserted_of_lt {name : String} (value : α) {entries : List (String × α)}
    (h : ∀ key ∈ entries.map Prod.fst, key < name) :
    inserted name value entries = entries ++ [(name, value)] := by
  induction entries with
  | nil => rfl
  | cons entry rest ih =>
    rw [List.map_cons, List.forall_mem_cons] at h
    obtain ⟨hentry, hrest⟩ := h
    have hne : entry.1 ≠ name := fun heq => String.lt_irrefl name (heq ▸ hentry)
    rw [inserted, if_neg (String.lt_asymm hentry), if_neg hne, ih hrest, List.cons_append]

theorem toList_foldl_insert (start : SortedEntries α) {entries : List (String × α)}
    (h : ((start.toList ++ entries).map Prod.fst).Pairwise (· < ·)) :
    (entries.foldl (fun acc (name, value) => acc.insert name value) start).toList =
      start.toList ++ entries := by
  induction entries generalizing start with
  | nil => rw [List.foldl_nil, List.append_nil]
  | cons entry rest ih =>
    have hlast : ∀ key ∈ start.toList.map Prod.fst, key < entry.1 := by
      rw [List.map_append, List.pairwise_append] at h
      exact fun key hkey => h.2.2 key hkey entry.1 List.mem_cons_self
    have hinsert : (start.insert entry.1 entry.2).toList = start.toList ++ [entry] := by
      rw [toList_insert, inserted_of_lt _ hlast]
    rw [List.foldl_cons, ih, hinsert, List.append_assoc, List.singleton_append]
    rwa [hinsert, List.append_assoc, List.singleton_append]

theorem ofList_toList (entries : SortedEntries α) : ofList entries.toList = entries := by
  apply toList_injective
  exact toList_foldl_insert empty entries.pairwise_map_fst_toList

theorem overlay_empty (entries : SortedEntries α) : empty.overlay entries = entries := ofList_toList entries

theorem perm_inserted {name : String} (value : α) {entries : List (String × α)}
    (h : name ∉ entries.map Prod.fst) : (inserted name value entries).Perm ((name, value) :: entries) := by
  induction entries with
  | nil => exact .refl _
  | cons entry rest ih =>
    rw [List.map_cons, List.mem_cons, not_or] at h
    rw [inserted]
    split
    · exact .refl _
    · rw [if_neg (Ne.symm h.1)]
      exact ((ih h.2).cons entry).trans (.swap ..)

theorem perm_toList_foldl_insert (start : SortedEntries α) {entries : List (String × α)}
    (h : ((start.toList ++ entries).map Prod.fst).Nodup) :
    (entries.foldl (fun acc (name, value) => acc.insert name value) start).toList.Perm
      (start.toList ++ entries) := by
  induction entries generalizing start with
  | nil => rw [List.foldl_nil, List.append_nil]
  | cons entry rest ih =>
    have hfresh : entry.1 ∉ start.toList.map Prod.fst := by
      rw [List.map_append, List.nodup_append] at h
      exact fun hmem => h.2.2 entry.1 hmem entry.1 List.mem_cons_self rfl
    have hinsert : ((start.insert entry.1 entry.2).toList ++ rest).Perm (start.toList ++ entry :: rest) := by
      rw [toList_insert]
      exact ((perm_inserted entry.2 hfresh).append_right rest).trans List.perm_middle.symm
    rw [List.foldl_cons]
    exact (ih _ ((hinsert.map Prod.fst).nodup_iff.mpr h)).trans hinsert

theorem perm_toList_ofList {entries : List (String × α)} (h : (entries.map Prod.fst).Nodup) :
    (ofList entries).toList.Perm entries :=
  perm_toList_foldl_insert empty h

theorem ofList_congr {entries others : List (String × α)} (hnodup : (entries.map Prod.fst).Nodup)
    (h : entries.Perm others) : ofList entries = ofList others := by
  have hperm : (ofList entries).toList.Perm (ofList others).toList :=
    ((perm_toList_ofList hnodup).trans h).trans
      (perm_toList_ofList ((h.map Prod.fst).nodup_iff.mp hnodup)).symm
  refine toList_injective (hperm.eq_of_pairwise ?_ (pairwise_toList _) (pairwise_toList _))
  exact fun first second _ _ hlt hgt => absurd hgt (String.lt_asymm hlt)

theorem inserted_map (f : α → β) (name : String) (value : α) (entries : List (String × α)) :
    inserted name (f value) (entries.map fun entry => (entry.1, f entry.2)) =
      (inserted name value entries).map fun entry => (entry.1, f entry.2) := by
  induction entries with
  | nil => rfl
  | cons entry rest ih =>
    rw [List.map_cons, inserted, inserted, ih]
    split
    · rfl
    · split <;> rfl

theorem map_insert (f : α → β) (entries : SortedEntries α) (name : String) (value : α) :
    (entries.insert name value).map f = (entries.map f).insert name (f value) := by
  apply toList_injective
  rw [toList_map, toList_insert, toList_insert, toList_map, inserted_map]

theorem map_ofList (f : α → β) (entries : List (String × α)) :
    (ofList entries).map f = ofList (entries.map fun entry => (entry.1, f entry.2)) := by
  rw [ofList, ofList, List.foldl_map]
  exact (List.foldl_hom (fun sorted : SortedEntries α => sorted.map f) fun sorted entry =>
    (map_insert f sorted entry.1 entry.2).symm).symm

end SortedEntries

end AttributeCodec
