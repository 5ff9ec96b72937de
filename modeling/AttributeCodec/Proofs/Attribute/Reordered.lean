import AttributeCodec.Proofs.Attribute.Lawful
import AttributeCodec.Proofs.Attribute.View
import AttributeCodec.Proofs.Codec.Rewrite
import AttributeCodec.Proofs.Tree.Attribute
import AttributeCodec.Proofs.Tree.Reordered

/-! Attributes that differ in nothing but the order of their maps. -/

namespace AttributeCodec

namespace Attribute

inductive View.Reordered : View → View → Prop
  | same (view : View) : Reordered view view
  | list {items others : List View} (length : items.length = others.length)
      (item : ∀ (index : Nat) item other, items[index]? = some item → others[index]? = some other →
        Reordered item other) :
      Reordered (list items) (list others)
  | map {entries others : Entries View} (names : ∀ name, name ∈ entries.names ↔ name ∈ others.names)
      (value : ∀ name view other, entries.get? name = some view → others.get? name = some other →
        Reordered view other) :
      Reordered (map entries) (map others)

inductive Tagged.Reordered : Tagged → Tagged → Prop
  | same (attr : Tagged) : Reordered attr attr
  | list {items others : List Tagged} (length : items.length = others.length)
      (item : ∀ (index : Nat) item other, items[index]? = some item → others[index]? = some other →
        Reordered item other) :
      Reordered (list items) (list others)
  | map {entries others : Entries Tagged} (names : ∀ name, name ∈ entries.names ↔ name ∈ others.names)
      (value : ∀ name attr other, entries.get? name = some attr → others.get? name = some other →
        Reordered attr other) :
      Reordered (map entries) (map others)

/-- The maps that do not count are no different from the one that does. -/
inductive Members.Reordered : Members → Members → Prop
  | same (members : Members) : Reordered members members
  | parts {members : Members} {list? : Option (List Members)} {map? : Option (Entries Members)}
      (noList : members.list? = none ↔ list? = none)
      (length : ∀ items ∈ members.list?, ∀ others ∈ list?, items.length = others.length)
      (item : ∀ items ∈ members.list?, ∀ others ∈ list?, ∀ (index : Nat) item other,
        items[index]? = some item → others[index]? = some other → Reordered item other)
      (noMap : members.map? = none ↔ map? = none)
      (names : ∀ entries ∈ members.map?, ∀ others ∈ map?, ∀ name, name ∈ entries.names ↔ name ∈ others.names)
      (value : ∀ entries ∈ members.map?, ∀ others ∈ map?, ∀ name member other,
        entries.get? name = some member → others.get? name = some other → Reordered member other) :
      Reordered members { members with list? := list?, map? := map? }

class Orderable (α : Type) [Form α] where
  Reordered : α → α → Prop
  same (attr : α) : Reordered attr attr
  list {items others : List α} (h : List.Forall₂ Reordered items others) :
    Reordered (Form.list items) (Form.list others)
  map {entries others : Entries α} (h : entries.Alike Reordered others) :
    Reordered (Form.map entries) (Form.map others)
  view {attr other : α} (h : Reordered attr other) : (Form.view attr).Reordered (Form.view other)

namespace View

theorem Reordered.ofItems {items others : List View} (h : List.Forall₂ Reordered items others) :
    Reordered (.list items) (.list others) := by
  obtain ⟨hlength, hitem⟩ := getElem?_of_forall₂ h
  exact .list hlength hitem

theorem Reordered.ofEntries {entries others : Entries View} (h : entries.Alike Reordered others) :
    Reordered (.map entries) (.map others) :=
  .map h.names h.value

theorem Reordered.agree_tree {view other : View} (h : Reordered view other) :
    Agree Tree.Reordered view.tree other.tree := by
  induction h with
  | same view => exact .refl Tree.Reordered.same view.tree
  | list length _ ih =>
    rw [tree_list, tree_list, bind_pure_comp, bind_pure_comp]
    exact (Agree.mapM (forall₂_of_getElem? length ih)).map fun _ _ => .ofItems
  | map names _ ih =>
    rw [tree_map, tree_map, bind_pure_comp, bind_pure_comp]
    have halike : Entries.Alike (fun view other : View => Agree Tree.Reordered view.tree other.tree) _ _ :=
      ⟨names, ih⟩
    exact (halike.traverse fun _ _ _ => id).map fun _ _ => .ofEntries

end View

theorem Tagged.reordered_view {attr other : Tagged} (h : attr.Reordered other) : attr.view.Reordered other.view := by
  induction h with
  | same attr => exact .same attr.view
  | list length _ ih =>
    rw [view, view, viewItems_eq_map, viewItems_eq_map]
    refine .ofItems ?_
    rw [List.forall₂_map_left_iff, List.forall₂_map_right_iff]
    exact forall₂_of_getElem? length ih
  | map names _ ih =>
    rw [view, view, viewEntries_eq_map, viewEntries_eq_map]
    have halike : Entries.Alike (fun attr other : Tagged => attr.view.Reordered other.view) _ _ := ⟨names, ih⟩
    exact .ofEntries (halike.map fun _ _ => id)

instance : Orderable Tagged where
  Reordered := Tagged.Reordered
  same := .same
  list h := .list (getElem?_of_forall₂ h).1 (getElem?_of_forall₂ h).2
  map h := .map h.names h.value
  view := Tagged.reordered_view

theorem Members.reordered_view {members other : Members} (h : members.Reordered other) :
    members.view.Reordered other.view := by
  induction h with
  | same members => exact .same members.view
  | @parts members list?' map?' noList length _ noMap names _ ihItem ihValue =>
    obtain ⟨binary?, bool?, binarySet?, list?, map?, number?, numberSet?, null?, string?, stringSet?⟩ := members
    -- Unless a member counts that comes before the list, it is the list that is seen, and else the map.
    cases null? with
    | some => exact .same .null
    | none =>
    cases bool? with
    | some value => exact .same (.bool value)
    | none =>
    cases number? with
    | some text => exact .same (.number text)
    | none =>
    cases binary? with
    | some bytes => exact .same (.binary bytes)
    | none =>
    cases string? with
    | some text => exact .same (.string text)
    | none =>
    cases list? with
    | some items =>
      cases list?' with
      | none => exact absurd (noList.mpr rfl) nofun
      | some others =>
        show (View.list (viewItems items)).Reordered (.list (viewItems others))
        rw [viewItems_eq_map, viewItems_eq_map]
        refine .ofItems ?_
        rw [List.forall₂_map_left_iff, List.forall₂_map_right_iff]
        exact forall₂_of_getElem? (length items rfl others rfl) (ihItem items rfl others rfl)
    | none =>
    obtain rfl : list?' = none := noList.mp rfl
    cases map? with
    | some entries =>
      cases map?' with
      | none => exact absurd (noMap.mpr rfl) nofun
      | some others =>
        show (View.map (viewEntries entries)).Reordered (.map (viewEntries others))
        rw [viewEntries_eq_map, viewEntries_eq_map]
        have halike : entries.Alike (fun member other : Members => member.view.Reordered other.view) others :=
          ⟨names entries rfl others rfl, ihValue entries rfl others rfl⟩
        exact .ofEntries (halike.map fun _ _ => id)
    | none =>
    obtain rfl : map?' = none := noMap.mp rfl
    exact .same _

instance : Orderable Members where
  Reordered := Members.Reordered
  same := .same
  list {items others} h := by
    obtain ⟨hlength, hitem⟩ := getElem?_of_forall₂ h
    show Members.Reordered { list? := some items } { list? := some others }
    refine .parts ?_ ?_ ?_ Iff.rfl nofun nofun
    · exact ⟨nofun, nofun⟩
    · rintro _ ⟨⟩ _ ⟨⟩
      exact hlength
    · rintro _ ⟨⟩ _ ⟨⟩
      exact hitem
  map {entries others} h := by
    show Members.Reordered { map? := some entries } { map? := some others }
    refine .parts Iff.rfl nofun nofun ?_ ?_ ?_
    · exact ⟨nofun, nofun⟩
    · rintro _ ⟨⟩ _ ⟨⟩
      exact h.names
    · rintro _ ⟨⟩ _ ⟨⟩
      exact h.value
  view := Members.reordered_view

variable {α : Type} [Form α] [Orderable α]

open Orderable (Reordered)

theorem agree_tree {attr other : α} (h : Reordered attr other) :
    Agree Tree.Reordered (Attribute.tree attr) (Attribute.tree other) :=
  (Orderable.view h).agree_tree

theorem agree_itemTree {item other : Entries α} (h : item.Alike Reordered other) :
    Agree Tree.Reordered (itemTree item) (itemTree other) := by
  have htrees : Agree Tree.Reordered (Tree.map <$> item.traverse fun _ => Attribute.tree)
      (Tree.map <$> other.traverse fun _ => Attribute.tree) :=
    (h.traverse fun _ _ _ => agree_tree).map fun _ _ => .ofEntries
  refine htrees.congr_ok (fun tree => ?_) fun tree => ?_
  · rw [itemTree_eq_ok_iff, map_eq_ok]
  · rw [itemTree_eq_ok_iff, map_eq_ok]

end Attribute

namespace Tree

open Attribute (Form Orderable)
open Attribute.Orderable (Reordered)

variable {α : Type} [Form α] [Orderable α]

theorem Reordered.agree_toAttribute {tree other : Tree} (h : tree.Reordered other) :
    Agree (Orderable.Reordered (α := α)) tree.toAttribute other.toAttribute := by
  induction h with
  | same tree => exact .refl Orderable.same _
  | list length _ ih =>
    rw [toAttribute_list, toAttribute_list]
    exact (Agree.mapM (forall₂_of_getElem? length ih)).map fun _ _ => Orderable.list
  | map names _ ih =>
    rw [toAttribute_map, toAttribute_map]
    have halike : Entries.Alike
        (fun tree other : Tree => Agree (Orderable.Reordered (α := α)) tree.toAttribute other.toAttribute) _ _ :=
      ⟨names, ih⟩
    exact (halike.traverse fun _ _ _ => id).map fun _ _ => Orderable.map

theorem agree_attributeEntries {entries others : Entries Tree} (h : entries.Alike Tree.Reordered others) :
    Agree (Entries.Alike (Orderable.Reordered (α := α))) (attributeEntries entries) (attributeEntries others) := by
  rw [attributeEntries_eq_traverse, attributeEntries_eq_traverse]
  exact h.traverse fun _ _ _ => Reordered.agree_toAttribute

theorem Reordered.agree_toItem {tree other : Tree} (h : tree.Reordered other) :
    Agree (Entries.Alike (Orderable.Reordered (α := α))) tree.toItem other.toItem := by
  cases h with
  | same tree => exact .refl (Entries.Alike.refl Orderable.same) _
  | list => exact .error _ _
  | map names value => exact agree_attributeEntries ⟨names, value⟩

end Tree

end AttributeCodec
