/-! `Fields α names` holds one value for each name, `Entries α` has its names distinct and in the order in which
they are visited, `SortedEntries α` has them ascending. -/

namespace AttributeCodec

inductive Fields (α : Type) : List String → Type where
  | nil : Fields α []
  | cons {names : List String} (name : String) (value : α) (rest : Fields α names) :
      Fields α (name :: names)

namespace Fields

variable {α β : Type} {names : List String}

def toList {names : List String} : Fields α names → List (String × α)
  | .nil => []
  | .cons name value rest => (name, value) :: rest.toList

def ofList : (entries : List (String × α)) → Fields α (entries.map Prod.fst)
  | [] => .nil
  | (name, value) :: rest => .cons name value (ofList rest)

def map (f : α → β) {names : List String} : Fields α names → Fields β names
  | .nil => .nil
  | .cons name value rest => .cons name (f value) (rest.map f)

def get? {names : List String} (key : String) : Fields α names → Option α
  | .nil => none
  | .cons name value rest => if name = key then some value else rest.get? key

@[simp] theorem map_fst_toList (fields : Fields α names) :
    fields.toList.map Prod.fst = names := by
  induction fields with
  | nil => rfl
  | cons name value rest ih => simp [toList, ih]

@[simp] theorem toList_ofList (entries : List (String × α)) : (ofList entries).toList = entries := by
  induction entries with
  | nil => rfl
  | cons entry rest ih => simp [ofList, toList, ih]

theorem toList_injective {fields others : Fields α names} (h : fields.toList = others.toList) :
    fields = others := by
  induction fields with
  | nil => cases others; rfl
  | cons name value rest ih =>
    cases others with
    | cons name' value' rest' =>
      simp only [toList, List.cons.injEq, Prod.mk.injEq, true_and] at h
      rw [h.1, ih h.2]

end Fields

structure Entries (α : Type) where
  names : List String
  distinct : names.Nodup
  fields : Fields α names

namespace Entries

variable {α : Type}

def toList (entries : Entries α) : List (String × α) := entries.fields.toList

def size (entries : Entries α) : Nat := entries.names.length

def get? (entries : Entries α) (name : String) : Option α := entries.fields.get? name

def ofList (entries : List (String × α)) (distinct : (entries.map Prod.fst).Nodup) : Entries α :=
  ⟨entries.map Prod.fst, distinct, .ofList entries⟩

def ofList? (entries : List (String × α)) : Option (Entries α) :=
  if distinct : (entries.map Prod.fst).Nodup then some (ofList entries distinct) else none

def empty : Entries α := ⟨[], .nil, .nil⟩

def singleton (name : String) (value : α) : Entries α := ⟨[name], by simp, .cons name value .nil⟩

@[simp] theorem toList_ofList (entries : List (String × α)) (distinct) :
    (ofList entries distinct).toList = entries :=
  Fields.toList_ofList entries

theorem toList_injective {entries others : Entries α} (h : entries.toList = others.toList) :
    entries = others := by
  obtain ⟨names, distinct, fields⟩ := entries
  obtain ⟨names', distinct', fields'⟩ := others
  have hn : names = names' := by
    rw [← fields.map_fst_toList, ← fields'.map_fst_toList]
    exact congrArg (List.map Prod.fst) h
  subst hn
  obtain rfl : fields = fields' := Fields.toList_injective h
  rfl

theorem nodup_map_fst_toList (entries : Entries α) : (entries.toList.map Prod.fst).Nodup := by
  simpa [toList] using entries.distinct

theorem map_fst_filterMap_sublist (entries : List (String × Option α)) :
    ((entries.filterMap fun (name, value?) => value?.map (name, ·)).map Prod.fst).Sublist
      (entries.map Prod.fst) := by
  induction entries with
  | nil => exact .refl _
  | cons entry rest ih =>
    obtain ⟨name, _ | value⟩ := entry
    · exact .cons _ ih
    · exact .cons_cons _ ih

def ofPresent (entries : List (String × Option α)) (distinct : (entries.map Prod.fst).Nodup) :
    Entries α :=
  ofList (entries.filterMap fun (name, value?) => value?.map (name, ·))
    (distinct.sublist (map_fst_filterMap_sublist entries))

def updated (name : String) (f : Option α → α) : List (String × α) → List (String × α)
  | [] => [(name, f none)]
  | (key, value) :: rest =>
    if key = name then (key, f (some value)) :: rest else (key, value) :: updated name f rest

theorem mem_map_fst_updated {name key : String} {f : Option α → α} {entries : List (String × α)} :
    key ∈ (updated name f entries).map Prod.fst ↔ key = name ∨ key ∈ entries.map Prod.fst := by
  induction entries with
  | nil => simp [updated]
  | cons entry rest ih =>
    unfold updated
    split <;> simp_all
    grind

theorem nodup_updated (name : String) (f : Option α → α) {entries : List (String × α)}
    (h : (entries.map Prod.fst).Nodup) : ((updated name f entries).map Prod.fst).Nodup := by
  induction entries with
  | nil => simp [updated]
  | cons entry rest ih =>
    obtain ⟨hentry, hrest⟩ := List.nodup_cons.mp h
    unfold updated
    split
    · exact h
    · next hne =>
      refine List.nodup_cons.mpr ⟨fun hmem => ?_, ih hrest⟩
      rcases mem_map_fst_updated.mp hmem with heq | hmem
      · exact hne heq
      · exact hentry hmem

def update (entries : Entries α) (name : String) (f : Option α → α) : Entries α :=
  ofList (updated name f entries.toList) (nodup_updated name f entries.nodup_map_fst_toList)

@[simp] theorem toList_update (entries : Entries α) (name : String) (f : Option α → α) :
    (entries.update name f).toList = updated name f entries.toList :=
  toList_ofList ..

end Entries

structure SortedEntries (α : Type) where
  names : List String
  ascending : names.Pairwise (· < ·)
  fields : Fields α names

namespace SortedEntries

variable {α : Type}

def toList (entries : SortedEntries α) : List (String × α) := entries.fields.toList

def size (entries : SortedEntries α) : Nat := entries.names.length

def get? (entries : SortedEntries α) (name : String) : Option α := entries.fields.get? name

def ofAscending (entries : List (String × α)) (ascending : (entries.map Prod.fst).Pairwise (· < ·)) :
    SortedEntries α :=
  ⟨entries.map Prod.fst, ascending, .ofList entries⟩

def empty : SortedEntries α := ⟨[], .nil, .nil⟩

@[simp] theorem toList_ofAscending (entries : List (String × α)) (ascending) :
    (ofAscending entries ascending).toList = entries :=
  Fields.toList_ofList entries

theorem toList_injective {entries others : SortedEntries α} (h : entries.toList = others.toList) :
    entries = others := by
  obtain ⟨names, ascending, fields⟩ := entries
  obtain ⟨names', ascending', fields'⟩ := others
  have hn : names = names' := by
    rw [← fields.map_fst_toList, ← fields'.map_fst_toList]
    exact congrArg (List.map Prod.fst) h
  subst hn
  obtain rfl : fields = fields' := Fields.toList_injective h
  rfl

theorem pairwise_map_fst_toList (entries : SortedEntries α) :
    (entries.toList.map Prod.fst).Pairwise (· < ·) := by
  simpa [toList] using entries.ascending

def inserted (name : String) (value : α) : List (String × α) → List (String × α)
  | [] => [(name, value)]
  | (key, other) :: rest =>
    if name < key then (name, value) :: (key, other) :: rest
    else if key = name then (name, value) :: rest
    else (key, other) :: inserted name value rest

theorem mem_map_fst_inserted {name key : String} {value : α} {entries : List (String × α)} :
    key ∈ (inserted name value entries).map Prod.fst ↔ key = name ∨ key ∈ entries.map Prod.fst := by
  induction entries with
  | nil => simp [inserted]
  | cons entry rest ih =>
    unfold inserted
    split
    · simp
    · split <;> simp_all
      grind

theorem pairwise_inserted (name : String) (value : α) {entries : List (String × α)}
    (h : (entries.map Prod.fst).Pairwise (· < ·)) :
    ((inserted name value entries).map Prod.fst).Pairwise (· < ·) := by
  induction entries with
  | nil => simp [inserted]
  | cons entry rest ih =>
    obtain ⟨hentry, hrest⟩ := List.pairwise_cons.mp h
    unfold inserted
    split
    · next hlt =>
      refine List.pairwise_cons.mpr ⟨fun key hkey => ?_, h⟩
      rcases List.mem_cons.mp hkey with rfl | hkey
      · exact hlt
      · exact String.lt_trans hlt (hentry key hkey)
    · split
      · next heq => subst heq; exact h
      · next hle hne =>
        refine List.pairwise_cons.mpr ⟨fun key hkey => ?_, ih hrest⟩
        rcases mem_map_fst_inserted.mp hkey with rfl | hkey
        · grind
        · exact hentry key hkey

def insert (entries : SortedEntries α) (name : String) (value : α) : SortedEntries α :=
  ofAscending (inserted name value entries.toList)
    (pairwise_inserted name value entries.pairwise_map_fst_toList)

@[simp] theorem toList_insert (entries : SortedEntries α) (name : String) (value : α) :
    (entries.insert name value).toList = inserted name value entries.toList :=
  toList_ofAscending ..

def overlay (entries others : SortedEntries α) : SortedEntries α :=
  others.toList.foldl (fun acc (name, value) => acc.insert name value) entries

def ofList (entries : List (String × α)) : SortedEntries α :=
  entries.foldl (fun acc (name, value) => acc.insert name value) empty

def toEntries (entries : SortedEntries α) : Entries α :=
  ⟨entries.names, entries.ascending.imp (by grind), entries.fields⟩

end SortedEntries

end AttributeCodec
