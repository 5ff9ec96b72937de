import AttributeCodec.Proofs.Entries

namespace AttributeCodec

variable {α : Type}

theorem lookup_of_not_mem {key : String} {entries : List (String × α)} (h : key ∉ entries.map Prod.fst) :
    entries.lookup key = none := by
  induction entries with
  | nil => rfl
  | cons entry rest ih =>
    rw [List.map_cons, List.mem_cons, not_or] at h
    rw [lookup_cons_of_ne h.1, ih h.2]

namespace SortedEntries

theorem get?_eq_lookup (entries : SortedEntries α) (key : String) : entries.get? key = entries.toList.lookup key :=
  entries.fields.get?_eq_lookup key

theorem nodup_map_fst_toList (entries : SortedEntries α) : (entries.toList.map Prod.fst).Nodup :=
  entries.pairwise_map_fst_toList.imp String.ne_of_lt

theorem get?_eq_some_iff {entries : SortedEntries α} {key : String} {value : α} :
    entries.get? key = some value ↔ (key, value) ∈ entries.toList := by
  show entries.toEntries.get? key = some value ↔ (key, value) ∈ entries.toEntries.toList
  exact Entries.get?_eq_some_iff

theorem lookup_inserted (name key : String) (value : α) (entries : List (String × α)) :
    (inserted name value entries).lookup key = if name = key then some value else entries.lookup key := by
  induction entries with
  | nil =>
    rw [inserted]
    split
    · next h => rw [h, List.lookup_cons_self]
    · next h => rw [lookup_cons_of_ne (Ne.symm h)]
  | cons entry rest ih =>
    obtain ⟨other, value'⟩ := entry
    rw [inserted]
    by_cases h : name = key
    · subst h
      rw [if_pos rfl] at ih ⊢
      split
      · exact List.lookup_cons_self
      · split
        · exact List.lookup_cons_self
        · next hne => rw [lookup_cons_of_ne (Ne.symm hne), ih]
    · rw [if_neg h] at ih ⊢
      split
      · exact lookup_cons_of_ne (Ne.symm h) ..
      · split
        · next heq => rw [heq, lookup_cons_of_ne (Ne.symm h), lookup_cons_of_ne (Ne.symm h)]
        · rw [List.lookup_cons, List.lookup_cons, ih]

theorem get?_insert (entries : SortedEntries α) (name key : String) (value : α) :
    (entries.insert name value).get? key = if name = key then some value else entries.get? key := by
  rw [get?_eq_lookup, toList_insert, lookup_inserted, get?_eq_lookup]

theorem get?_foldl_insert (start : SortedEntries α) {entries : List (String × α)}
    (hnodup : (entries.map Prod.fst).Nodup) (key : String) :
    (entries.foldl (fun acc (name, value) => acc.insert name value) start).get? key =
      (entries.lookup key).or (start.get? key) := by
  induction entries generalizing start with
  | nil => rfl
  | cons entry rest ih =>
    obtain ⟨name, value⟩ := entry
    obtain ⟨hname, hrest⟩ := List.nodup_cons.mp hnodup
    rw [List.foldl_cons, ih _ hrest, get?_insert]
    split
    · next h =>
      subst h
      rw [List.lookup_cons_self, lookup_of_not_mem hname, Option.none_or, Option.some_or]
    · next h => rw [lookup_cons_of_ne (Ne.symm h)]

theorem get?_overlay (entries others : SortedEntries α) (key : String) :
    (entries.overlay others).get? key = (others.get? key).or (entries.get? key) := by
  rw [overlay, get?_foldl_insert _ others.nodup_map_fst_toList, ← get?_eq_lookup]

theorem get?_ofList {entries : List (String × α)} (hnodup : (entries.map Prod.fst).Nodup) (key : String) :
    (ofList entries).get? key = entries.lookup key := by
  rw [ofList, get?_foldl_insert _ hnodup]
  exact Option.or_none

theorem ext_get? {entries others : SortedEntries α} (h : ∀ key, entries.get? key = others.get? key) :
    entries = others := by
  have hmem : ∀ entry, entry ∈ entries.toList ↔ entry ∈ others.toList := by
    rintro ⟨key, value⟩
    rw [← get?_eq_some_iff, ← get?_eq_some_iff, h]
  have hperm : entries.toList.Perm others.toList :=
    (List.perm_ext_iff_of_nodup (List.Nodup.of_map _ entries.nodup_map_fst_toList)
      (List.Nodup.of_map _ others.nodup_map_fst_toList)).mpr hmem
  refine toList_injective (hperm.eq_of_pairwise ?_ entries.pairwise_toList others.pairwise_toList)
  exact fun _ _ _ _ hlt hgt => absurd hgt (String.lt_asymm hlt)

theorem overlay_overlay (entries first second : SortedEntries α) :
    (entries.overlay first).overlay second = entries.overlay (first.overlay second) := by
  refine ext_get? fun key => ?_
  rw [get?_overlay, get?_overlay, get?_overlay, get?_overlay, Option.or_assoc]

end SortedEntries

end AttributeCodec
