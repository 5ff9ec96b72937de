import AttributeCodec.Proofs.Agreement
import AttributeCodec.Proofs.Slot.Finish

namespace AttributeCodec

namespace Tree

inductive Reordered : Tree → Tree → Prop
  | same (tree : Tree) : Reordered tree tree
  | list {items others : List Tree} (length : items.length = others.length)
      (item : ∀ (index : Nat) item other, items[index]? = some item → others[index]? = some other →
        Reordered item other) :
      Reordered (list items) (list others)
  | map {entries others : Entries Tree} (names : ∀ name, name ∈ entries.names ↔ name ∈ others.names)
      (value : ∀ name tree other, entries.get? name = some tree → others.get? name = some other →
        Reordered tree other) :
      Reordered (map entries) (map others)

theorem Reordered.ofItems {items others : List Tree} (h : List.Forall₂ Reordered items others) :
    Reordered (.list items) (.list others) := by
  obtain ⟨hlength, hitem⟩ := getElem?_of_forall₂ h
  exact .list hlength hitem

theorem Reordered.ofEntries {entries others : Entries Tree} (h : entries.Alike Reordered others) :
    Reordered (.map entries) (.map others) :=
  .map h.names h.value

theorem Reordered.symm {tree other : Tree} (h : Reordered tree other) : Reordered other tree := by
  induction h with
  | same tree => exact .same tree
  | list length _ ih =>
    exact .list length.symm fun index item other hitem hother => ih index other item hother hitem
  | map names _ ih =>
    exact .map (fun name => (names name).symm) fun name tree other htree hother => ih name other tree hother htree

theorem Reordered.trans {tree other third : Tree} (h : Reordered tree other) (h' : Reordered other third) :
    Reordered tree third := by
  induction h generalizing third with
  | same => exact h'
  | @list items others length item ih =>
    cases h' with
    | same => exact .list length item
    | list length' item' =>
      refine .list (length.trans length') fun index first last hfirst hlast => ?_
      obtain ⟨hindex, -⟩ := List.getElem?_eq_some_iff.mp hfirst
      have hmiddle := List.getElem?_eq_getElem (length ▸ hindex : index < others.length)
      exact ih index first _ hfirst hmiddle (item' index _ last hmiddle hlast)
  | @map entries others names value ih =>
    cases h' with
    | same => exact .map names value
    | map names' value' =>
      refine .map (fun name => (names name).trans (names' name)) fun name first last hfirst hlast => ?_
      obtain ⟨middle, hmiddle⟩ := Entries.exists_get? ((names name).mp (Entries.mem_names_of_get? hfirst))
      exact ih name first middle hfirst hmiddle (value' name middle last hmiddle hlast)

end Tree

namespace Slot

inductive Reordered : Slot → Slot → Prop
  | same (slot : Slot) : Reordered slot slot
  | list {slots others : List Slot} (length : slots.length = others.length)
      (item : ∀ (index : Nat) slot other, slots[index]? = some slot → others[index]? = some other →
        Reordered slot other) :
      Reordered (list slots) (list others)
  | map {announced : Nat} {entries others : Entries Slot} (names : ∀ name, name ∈ entries.names ↔ name ∈ others.names)
      (value : ∀ name slot other, entries.get? name = some slot → others.get? name = some other →
        Reordered slot other) :
      Reordered (map announced entries) (map announced others)

theorem agree_tree_list {slots others : List Slot}
    (h : List.Forall₂ (fun slot other => Agree Tree.Reordered slot.tree other.tree) slots others) :
    Agree Tree.Reordered (list slots).tree (list others).tree := by
  have hitems : Agree Tree.Reordered (Tree.list <$> slots.mapM tree) (Tree.list <$> others.mapM tree) :=
    (Agree.mapM h).map fun _ _ => .ofItems
  refine hitems.congr_ok (fun finished => ?_) fun finished => ?_
  · rw [tree_list_eq_ok_iff, map_eq_ok]
  · rw [tree_list_eq_ok_iff, map_eq_ok]

theorem agree_tree_map {announced : Nat} {entries others : Entries Slot}
    (h : entries.Alike (fun slot other => Agree Tree.Reordered slot.tree other.tree) others) :
    Agree Tree.Reordered (map announced entries).tree (map announced others).tree := by
  have htrees : Agree Tree.Reordered (Tree.map <$> entries.traverse fun _ => tree)
      (Tree.map <$> others.traverse fun _ => tree) :=
    (h.traverse fun _ _ _ => id).map fun _ _ => .ofEntries
  by_cases hsize : announced ≤ entries.size
  · refine htrees.congr_ok (fun finished => ?_) fun finished => ?_
    · rw [tree_map_eq_ok_iff, and_iff_right hsize, map_eq_ok]
    · rw [tree_map_eq_ok_iff, and_iff_right (h.size_eq ▸ hsize), map_eq_ok]
  -- With fewer entries than were announced neither map is ever complete.
  · refine .of_exists (fun finished hfinished => ?_) fun finished hfinished => ?_
    · exact absurd (tree_map_eq_ok_iff.mp hfinished).1 hsize
    · exact absurd (h.size_eq ▸ (tree_map_eq_ok_iff.mp hfinished).1) hsize

theorem Reordered.agree_tree {slot other : Slot} (h : Reordered slot other) :
    Agree Tree.Reordered slot.tree other.tree := by
  induction h with
  | same slot => exact .refl Tree.Reordered.same slot.tree
  | list length _ ih => exact agree_tree_list (forall₂_of_getElem? length ih)
  | map names _ ih => exact agree_tree_map ⟨names, ih⟩

theorem Reordered.agree_finish {slot other : Slot} (h : Reordered slot other) :
    Agree Tree.Reordered slot.finish other.finish :=
  h.agree_tree.congr_ok (fun _ => finish_eq_ok_iff) fun _ => finish_eq_ok_iff

end Slot

end AttributeCodec
