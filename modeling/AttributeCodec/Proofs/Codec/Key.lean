import AttributeCodec.Proofs.Entity.Encode
import Mathlib.Data.List.Induction

/-! The key of an entity is its item with only the key fields left. -/

namespace AttributeCodec

open Attribute (Form Members Tagged)

namespace Entries

def restrict {α : Type} (entries : Entries α) (names : List String) : Entries α :=
  ofList (entries.toList.filter fun entry => entry.1 ∈ names)
    (entries.nodup_map_fst_toList.sublist (List.filter_sublist.map Prod.fst))

theorem mem_toList_restrict {α : Type} {entries : Entries α} {names : List String} {entry : String × α} :
    entry ∈ (entries.restrict names).toList ↔ entry ∈ entries.toList ∧ entry.1 ∈ names := by
  rw [restrict, toList_ofList, List.mem_filter, decide_eq_true_iff]

theorem mem_names_restrict {α : Type} {entries : Entries α} {names : List String} {name : String} :
    name ∈ (entries.restrict names).names ↔ name ∈ entries.names ∧ name ∈ names := by
  simp only [mem_names_iff, mem_toList_restrict]
  constructor
  · rintro ⟨entry, ⟨hmem, hname⟩, rfl⟩
    exact ⟨⟨entry, hmem, rfl⟩, hname⟩
  · rintro ⟨⟨entry, hmem, rfl⟩, hname⟩
    exact ⟨entry, ⟨hmem, hname⟩, rfl⟩

end Entries

namespace KeyNames

variable {δ : Type} [Storable δ] {hook : Hook} {stored : δ} {trees result : Entries Tree} {names : List String}

def fieldTree (hook : Hook) (stored : δ) (name : String) : Except Fault Tree := do
  (← Storable.field stored name).toTree hook

theorem treesOf_cons (hook : Hook) (stored : δ) (trees : Entries Tree) (name : String) (names : List String) :
    treesOf hook stored trees (name :: names) =
      fieldTree hook stored name >>= fun tree => treesOf hook stored (trees.update name fun _ => tree) names := by
  rw [treesOf, fieldTree, bind_assoc]

theorem exists_treesOf_iff :
    (∃ result, treesOf hook stored trees names = .ok result) ↔
      ∀ name ∈ names, ∃ tree, fieldTree hook stored name = .ok tree := by
  induction names generalizing trees with
  | nil => exact ⟨fun _ _ hname => absurd hname List.not_mem_nil, fun _ => ⟨trees, rfl⟩⟩
  | cons name names ih =>
    simp only [treesOf_cons, bind_eq_ok, List.forall_mem_cons]
    constructor
    · rintro ⟨result, tree, htree, hresult⟩
      exact ⟨⟨tree, htree⟩, ih.mp ⟨result, hresult⟩⟩
    · rintro ⟨⟨tree, htree⟩, hrest⟩
      obtain ⟨result, hresult⟩ := ih.mpr hrest
      exact ⟨result, tree, htree, hresult⟩

theorem mem_names_treesOf (h : treesOf hook stored trees names = .ok result) {name : String} :
    name ∈ result.names ↔ name ∈ trees.names ∨ name ∈ names := by
  induction names generalizing trees with
  | nil =>
    cases h
    simp
  | cons other names ih =>
    rw [treesOf_cons, bind_eq_ok] at h
    obtain ⟨tree, -, h⟩ := h
    rw [ih h, Entries.mem_names_update, List.mem_cons, or_assoc, or_left_comm]

theorem fieldTree_of_treesOf (h : treesOf hook stored trees names = .ok result)
    (hbefore : ∀ entry ∈ trees.toList, fieldTree hook stored entry.1 = .ok entry.2) :
    ∀ entry ∈ result.toList, fieldTree hook stored entry.1 = .ok entry.2 := by
  induction names generalizing trees with
  | nil =>
    cases h
    exact hbefore
  | cons name names ih =>
    rw [treesOf_cons, bind_eq_ok] at h
    obtain ⟨tree, htree, h⟩ := h
    refine ih h fun entry hentry => ?_
    -- Asked for again, a field's tree takes the place of the one that was there.
    have hget := Entries.get?_eq_some_iff.mpr hentry
    rw [Entries.get?_update] at hget
    split at hget
    · next hname => rw [← hname, htree, Option.some.inj hget]
    · exact hbefore entry (Entries.get?_eq_some_iff.mp hget)

theorem treesOf_eq_error {before after : List String} {name : String} {fault : Fault}
    (hbefore : ∀ earlier ∈ before, ∃ tree, fieldTree hook stored earlier = .ok tree)
    (hname : fieldTree hook stored name = .error fault) :
    treesOf hook stored trees (before ++ name :: after) = .error fault := by
  induction before generalizing trees with
  | nil =>
    rw [List.nil_append, treesOf_cons, hname]
    rfl
  | cons earlier before ih =>
    obtain ⟨⟨tree, htree⟩, hrest⟩ := List.forall_mem_cons.mp hbefore
    rw [List.cons_append, treesOf_cons, htree]
    exact ih hrest

theorem treesOf_congr {other : δ}
    (h : ∀ name ∈ names, fieldTree hook stored name = fieldTree hook other name) :
    treesOf hook stored trees names = treesOf hook other trees names := by
  induction names generalizing trees with
  | nil => rfl
  | cons name names ih =>
    obtain ⟨hname, hrest⟩ := List.forall_mem_cons.mp h
    rw [treesOf_cons, treesOf_cons, hname]
    exact bind_congr fun tree => ih hrest

end KeyNames

def Entity.AgreesOn (entity other : Entity) (names : List String) : Prop :=
  ∀ name ∈ names, entity.get? name = other.get? name

namespace Codec

section Fields

variable {codec : Codec} {α : Type} [Form α] {keys : KeyNames} {δ : Type} [Storable δ] {stored : δ}
  {entity other : Entity}

theorem key_eq_bind (hkeys : codec.keys? = some keys) (stored : δ) :
    (codec.key stored : Except Fault (Entries α)) =
      KeyNames.treesOf codec.hook stored .empty keys.names >>= Tree.attributeEntries := by
  rw [key, hkeys]
  rfl

theorem fieldTree_of_key {trees : Entries Tree}
    (h : KeyNames.treesOf codec.hook stored .empty keys.names = .ok trees) :
    ∀ entry ∈ trees.toList, KeyNames.fieldTree codec.hook stored entry.1 = .ok entry.2 :=
  KeyNames.fieldTree_of_treesOf h fun _ hentry => absurd hentry List.not_mem_nil

theorem exists_key_of_fieldTree (hkeys : codec.keys? = some keys)
    (h : ∀ name ∈ keys.names, ∃ attr : α,
      (KeyNames.fieldTree codec.hook stored name >>= Tree.toAttribute) = .ok attr) :
    ∃ key : Entries α, codec.key stored = .ok key := by
  rw [key_eq_bind hkeys]
  have hfields : ∀ name ∈ keys.names, ∃ tree, KeyNames.fieldTree codec.hook stored name = .ok tree := by
    intro name hname
    obtain ⟨attr, hattr⟩ := h name hname
    rw [bind_eq_ok] at hattr
    exact hattr.imp fun _ htree => htree.1
  obtain ⟨trees, htrees⟩ : ∃ trees, KeyNames.treesOf codec.hook stored .empty keys.names = .ok trees :=
    KeyNames.exists_treesOf_iff.mpr hfields
  have hattrs : ∃ key : Entries α, (trees.traverse fun _ => Tree.toAttribute) = .ok key := by
    refine Entries.exists_traverse_iff.mpr fun entry hentry => ?_
    have hname : entry.1 ∈ keys.names := by
      have hmem := (KeyNames.mem_names_treesOf htrees).mp (Entries.mem_names_of_mem hentry)
      exact hmem.resolve_left List.not_mem_nil
    obtain ⟨attr, hattr⟩ := h entry.1 hname
    rw [fieldTree_of_key htrees entry hentry] at hattr
    exact ⟨attr, hattr⟩
  obtain ⟨key, hkey⟩ := hattrs
  exact ⟨key, bind_eq_ok.mpr ⟨trees, htrees, (Tree.attributeEntries_eq_traverse trees).trans hkey⟩⟩

theorem fieldTree_toAttribute_of_key (hkeys : codec.keys? = some keys) {key : Entries α}
    (h : codec.key stored = .ok key) :
    (∀ name, name ∈ key.names ↔ name ∈ keys.names) ∧
      ∀ entry ∈ key.toList, (KeyNames.fieldTree codec.hook stored entry.1 >>= Tree.toAttribute) = .ok entry.2 := by
  rw [key_eq_bind hkeys] at h
  obtain ⟨trees, htrees, hattrs⟩ := bind_eq_ok.mp h
  rw [Tree.attributeEntries_eq_traverse] at hattrs
  refine ⟨fun name => ?_, fun entry hentry => ?_⟩
  · rw [Entries.names_of_traverse hattrs, KeyNames.mem_names_treesOf htrees]
    exact or_iff_right List.not_mem_nil
  · obtain ⟨tree, htree, hattr⟩ := Entries.get?_of_traverse hattrs (Entries.get?_of_mem_toList hentry)
    rw [fieldTree_of_key htrees _ (Entries.get?_eq_some_iff.mp htree)]
    exact hattr

theorem encodeField_eq_bind (name : String) :
    (codec.encodeField entity name : Except Fault α) =
      KeyNames.fieldTree codec.hook entity name >>= Tree.toAttribute := by
  rw [encodeField, KeyNames.fieldTree, bind_assoc]
  rfl

theorem exists_key (hkeys : codec.keys? = some keys)
    (h : ∀ name ∈ keys.names, ∃ attr : α, codec.encodeField entity name = .ok attr) :
    ∃ key : Entries α, codec.key entity = .ok key := by
  simp only [encodeField_eq_bind] at h
  exact exists_key_of_fieldTree hkeys h

theorem encodeField_of_key (hkeys : codec.keys? = some keys) {key : Entries α} (h : codec.key entity = .ok key) :
    (∀ name, name ∈ key.names ↔ name ∈ keys.names) ∧
      ∀ entry ∈ key.toList, codec.encodeField entity entry.1 = .ok entry.2 := by
  simp only [encodeField_eq_bind]
  exact fieldTree_toAttribute_of_key hkeys h

theorem fieldTree_congr {name : String} (h : entity.get? name = other.get? name) (hook : Hook) :
    KeyNames.fieldTree hook entity name = KeyNames.fieldTree hook other name := by
  have hfield : Storable.field entity name = Storable.field other name := by
    show entity.field name = other.field name
    rw [Entity.field, h, Entity.field]
  rw [KeyNames.fieldTree, hfield, KeyNames.fieldTree]

end Fields

variable (codec : Codec) (α : Type) [Form α]

structure KeyRestricts (names : List String) : Prop where
  present : ∀ (entity : Entity) (item : Entries α), codec.encodeItem entity = .ok item →
    (∀ name ∈ names, ∃ datum, entity.get? name = some datum) →
      ∃ key : Entries α, codec.key entity = .ok key ∧ key.toList.Perm (item.restrict names).toList ∧
        key.size = names.dedup.length
  missing : ∀ (entity : Entity) (item : Entries α), codec.encodeItem entity = .ok item →
    ∀ before name after, names = before ++ name :: after →
      (∀ earlier ∈ before, ∃ datum, entity.get? earlier = some datum) → entity.get? name = none →
        (codec.key entity : Except Fault (Entries α)) = .error (.missingField name)
  agree : ∀ entity other : Entity, entity.AgreesOn other names →
    (codec.key entity : Except Fault (Entries α)) = codec.key other

variable {codec α}

theorem exists_encodeField {entity : Entity} {item : Entries α} (hitem : codec.encodeItem entity = .ok item)
    {name : String} (hname : ∃ datum, entity.get? name = some datum) :
    name ∈ item.names ∧ ∃ attr : α, codec.encodeField entity name = .ok attr := by
  obtain ⟨hnames, hfields⟩ := encodeField_of_encodeItem hitem
  obtain ⟨datum, hdatum⟩ := hname
  have hmem : name ∈ entity.fields.names := by
    rw [← entity.fields.fields.map_fst_toList]
    exact List.mem_map_of_mem (SortedEntries.get?_eq_some_iff.mp hdatum)
  have hitemName := (hnames name).mpr hmem
  obtain ⟨entry, hentry, rfl⟩ := Entries.mem_names_iff.mp hitemName
  exact ⟨hitemName, entry.2, hfields entry hentry⟩

theorem keyRestricts {keys : KeyNames} (hkeys : codec.keys? = some keys) : codec.KeyRestricts α keys.names where
  present entity item hitem hpresent := by
    have hencoded := fun name hname => exists_encodeField hitem (hpresent name hname)
    obtain ⟨key, hkey⟩ := exists_key hkeys fun name hname => (hencoded name hname).2
    obtain ⟨hnames, hfields⟩ := encodeField_of_key hkeys hkey
    refine ⟨key, hkey, ?_, Entries.size_eq_dedup hnames⟩
    refine Entries.perm_of_names (fun name => ?_) fun entry hentry other hother hname => ?_
    · rw [hnames, Entries.mem_names_restrict, iff_and_self]
      exact fun hname => (hencoded name hname).1
    · have hitemField := (encodeField_of_encodeItem hitem).2 other (Entries.mem_toList_restrict.mp hother).1
      rw [← hname, hfields entry hentry] at hitemField
      exact Except.ok.inj hitemField
  missing entity item hitem before name after hlist hbefore hname := by
    have hfault : KeyNames.fieldTree codec.hook entity name = .error (.missingField name) := by
      rw [KeyNames.fieldTree, Entity.field_eq_error hname]
      rfl
    rw [key_eq_bind hkeys, hlist, KeyNames.treesOf_eq_error (fun earlier hearlier => ?_) hfault]
    · rfl
    · obtain ⟨-, attr, hattr⟩ := exists_encodeField hitem (hbefore earlier hearlier)
      rw [encodeField_eq_bind, bind_eq_ok] at hattr
      exact hattr.imp fun _ htree => htree.1
  agree entity other h := by
    rw [key_eq_bind hkeys, key_eq_bind hkeys,
      KeyNames.treesOf_congr fun name hname => fieldTree_congr (h name hname) codec.hook]

namespace Settings

namespace Change

def partition? : Change → Option String
  | .partition name => some name
  | _ => none

def sort? : Change → Option String
  | .sort name => some name
  | _ => none

end Change

def lastPartition? (changes : List Change) : Option String := (changes.filterMap Change.partition?).getLast?

def lastSort? (changes : List Change) : Option String := (changes.filterMap Change.sort?).getLast?

def keyNames (partition : String) (changes : List Change) : List String :=
  partition :: ((lastSort? changes).filter fun name => !name.isEmpty).toList

theorem foldl_change (changes : List Change) :
    (changes.foldl change {}).partition? = lastPartition? changes ∧
      (changes.foldl change {}).sort? = lastSort? changes := by
  -- The last change decides, so the induction adds the changes at the end.
  induction changes using List.reverseRecOn with
  | nil => exact ⟨rfl, rfl⟩
  | append_singleton changes last ih =>
    obtain ⟨hpartition, hsort⟩ := ih
    rw [List.foldl_append, lastPartition?, lastSort?, List.filterMap_append, List.filterMap_append]
    cases last <;> simp [change, Change.partition?, Change.sort?, hpartition, hsort, lastPartition?, lastSort?]

theorem keys?_foldl_change (changes : List Change) :
    (lastPartition? changes = none → (changes.foldl change {}).keys? = none) ∧
      ∀ partition, lastPartition? changes = some partition →
        ∃ keys, (changes.foldl change {}).keys? = some keys ∧ keys.names = keyNames partition changes := by
  obtain ⟨hpartition, hsort⟩ := foldl_change changes
  rw [keys?, hpartition, hsort]
  refine ⟨fun h => by rw [h, Option.map_none], fun partition h => ?_⟩
  rw [h]
  -- No sort name and an empty one come to the same.
  refine ⟨KeyNames.withSort ⟨partition, none⟩ ((lastSort? changes).getD ""), rfl, ?_⟩
  rw [KeyNames.names, KeyNames.withSort, keyNames]
  cases lastSort? changes with
  | none => rfl
  | some name =>
    rw [Option.getD_some, Option.filter_some]
    cases name.isEmpty <;> rfl

end Settings

def ofChanges (changes : List Settings.Change) : Codec := (changes.foldl Settings.change {}).codec

theorem key_ofChanges_of_none {changes : List Settings.Change} (h : Settings.lastPartition? changes = none)
    (entity : Entity) : ((ofChanges changes).key entity : Except Fault (Entries α)) = .error .noKeys := by
  have hkeys : (ofChanges changes).keys? = none := (Settings.keys?_foldl_change changes).1 h
  rw [key, hkeys]
  rfl

theorem keyRestricts_ofChanges {changes : List Settings.Change} {partition : String}
    (h : Settings.lastPartition? changes = some partition) :
    (ofChanges changes).KeyRestricts α (Settings.keyNames partition changes) := by
  obtain ⟨keys, hkeys, hnames⟩ := (Settings.keys?_foldl_change changes).2 partition h
  exact hnames ▸ keyRestricts hkeys

theorem key_restricts_item (changes : List Settings.Change) :
    (Settings.lastPartition? changes = none → ∀ entity : Entity,
      ((ofChanges changes).key entity : Except Fault (Entries Members)) = .error .noKeys ∧
        ((ofChanges changes).key entity : Except Fault (Entries Tagged)) = .error .noKeys) ∧
      ∀ partition, Settings.lastPartition? changes = some partition →
        (ofChanges changes).KeyRestricts Members (Settings.keyNames partition changes) ∧
          (ofChanges changes).KeyRestricts Tagged (Settings.keyNames partition changes) :=
  ⟨fun h entity => ⟨key_ofChanges_of_none h entity, key_ofChanges_of_none h entity⟩,
    fun _ h => ⟨keyRestricts_ofChanges h, keyRestricts_ofChanges h⟩⟩

def shelfChanges : List Settings.Change := [.sort "spot", .partition "id", .sort "", .withoutSpecials, .sort "id"]

def shelved : Entity := (Entity.set {} "id" (.string "a1")).set "spot" (.string "left")

def shelvedItem : Entries Tagged := .ofList [("id", .string "a1"), ("spot", .string "left")] (by decide)

def dated : Entity := shelved.set "spot" (.timestamp lastHalfHour)

theorem key_restricts_item_shelved :
    ((ofChanges [.sort "id"]).key shelved : Except Fault (Entries Tagged)) = .error .noKeys ∧
      (∃ key : Entries Tagged, (ofChanges shelfChanges).key shelved = .ok key ∧
        key.toList.Perm [("id", .string "a1")] ∧ key.size = 1) ∧
      ((ofChanges shelfChanges).key (Entity.set {} "spot" (.string "left")) : Except Fault (Entries Tagged)) =
        .error (.missingField "id") ∧
      ((ofChanges shelfChanges).key dated : Except Fault (Entries Tagged)) = (ofChanges shelfChanges).key shelved ∧
      ((ofChanges shelfChanges).encodeItem dated : Except Fault (Entries Tagged)) =
        .error (.noEncoding "timestamp") := by
  obtain ⟨-, hrestricts⟩ := (key_restricts_item shelfChanges).2 "id" rfl
  have hnames : ∀ name ∈ Settings.keyNames "id" shelfChanges, name = "id" := by decide
  have hitem : (ofChanges shelfChanges).encodeItem shelved = .ok shelvedItem := rfl
  have hbare : (ofChanges shelfChanges).encodeItem (Entity.set {} "spot" (.string "left")) =
      .ok (Entries.singleton "spot" (Tagged.string "left")) := rfl
  refine ⟨((key_restricts_item [.sort "id"]).1 rfl shelved).2, ?_, ?_, ?_, rfl⟩
  · refine hrestricts.present shelved shelvedItem hitem ?_
    exact fun name hname => ⟨.string "a1", by rw [hnames name hname]; rfl⟩
  · exact hrestricts.missing _ _ hbare [] "id" ["id"] rfl (List.forall_mem_nil _) rfl
  · exact hrestricts.agree dated shelved fun name hname => by rw [hnames name hname]; rfl

end Codec

end AttributeCodec
