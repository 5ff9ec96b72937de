import AttributeCodec.Proofs.Attribute.Json.Exchange
import AttributeCodec.Proofs.Tree.Normal

namespace AttributeCodec

namespace Attribute

def Members.Setting.IsPlain : Members.Setting → Prop
  | null value => value = true
  | string text => text ≠ ""
  | number text => ∃ n, Number.read text = .ok n
  | stringSet _ | numberSet _ | binarySet _ => False
  | _ => True

def Members.WellFormed (attr : Members) : Prop :=
  ∀ node ∈ attr.nodes, ∃ setting, node.settings = [setting] ∧ setting.IsPlain

def Tagged.WellFormed (attr : Tagged) : Prop := ∀ node ∈ attr.nodes, node.setting.IsPlain

theorem Tagged.wellFormed_iff {attr : Tagged} :
    attr.WellFormed ↔ attr.setting.IsPlain ∧ ∀ child ∈ attr.children, child.WellFormed :=
  forall_nodes_iff

theorem Tagged.wellFormed_toMembers {attr : Tagged} : attr.toMembers.WellFormed ↔ attr.WellFormed := by
  induction attr with
  | step attr ih =>
    rw [wellFormed_iff, Members.WellFormed, Members.forall_nodes_iff, settings_toMembers]
    simp only [List.cons.injEq, and_true, exists_eq_left', List.forall_mem_singleton, children_setting,
      List.forall_mem_map]
    exact and_congr_right fun _ => forall₂_congr ih

end Attribute

namespace Tree

open Attribute (Form LawfulForm Members Tagged)

theorem toAttribute_list {α : Type} [Form α] (items : List Tree) :
    (list items).toAttribute = (Form.list <$> items.mapM toAttribute : Except Fault α) := by
  rw [toAttribute, attributeItems_eq_mapM, bind_pure_comp]

theorem toAttribute_map {α : Type} [Form α] (entries : Entries Tree) :
    (map entries).toAttribute =
      (Form.map <$> entries.traverse fun _ => toAttribute : Except Fault α) := by
  rw [toAttribute, attributeEntries_eq_traverse, bind_pure_comp]

theorem toAttribute_eq_toMembers (tree : Tree) :
    tree.toAttribute = Tagged.toMembers <$> tree.toAttribute := by
  induction tree with
  | list items ih =>
    rw [toAttribute_list, toAttribute_list, mapM_eq_map_mapM ih]
    cases items.mapM (toAttribute (α := Tagged)) with
    | error fault => rfl
    | ok attrs => exact congrArg Except.ok (Tagged.toMembers_list attrs).symm
  | map entries ih =>
    rw [toAttribute_map, toAttribute_map, Entries.traverse_eq_map_traverse (f := fun _ => toAttribute) ih]
    cases entries.traverse fun _ => toAttribute (α := Tagged) with
    | error fault => rfl
    | ok attrs => exact congrArg Except.ok (Tagged.toMembers_map attrs).symm
  | string text =>
    rw [toAttribute, toAttribute]
    split <;> rfl
  | _ => rfl

theorem setFree_of_toAttribute {α : Type} [Form α] {tree : Tree} {attr : α} (h : tree.toAttribute = .ok attr) :
    tree.SetFree := by
  induction tree generalizing attr with
  | list items ih =>
    rw [toAttribute_list, map_eq_ok] at h
    obtain ⟨attrs, hattrs, -⟩ := h
    refine setFree_list.mpr fun item hitem => ?_
    obtain ⟨attr, hattr⟩ := exists_mapM_iff.mp ⟨attrs, hattrs⟩ item hitem
    exact ih item hitem hattr
  | map entries ih =>
    rw [toAttribute_map, map_eq_ok] at h
    obtain ⟨attrs, hattrs, -⟩ := h
    refine setFree_map.mpr fun entry hentry => ?_
    obtain ⟨attr, hattr⟩ := Entries.exists_traverse_iff.mp ⟨attrs, hattrs⟩ entry hentry
    exact ih entry hentry hattr
  | set type => exact absurd h throw_ne_ok
  | _ => simp [SetFree, nodes, set?]

theorem fault_eq_of_toAttribute {α : Type} [Form α] {tree : Tree} {fault : Fault}
    (h : tree.toAttribute (α := α) = .error fault) : fault = .unknownKind .unsupported := by
  induction tree with
  | list items ih =>
    rw [toAttribute_list, map_eq_error] at h
    obtain ⟨item, hitem, hfault⟩ := mapM_eq_error h
    exact ih item hitem hfault
  | map entries ih =>
    rw [toAttribute_map, map_eq_error] at h
    obtain ⟨entry, hentry, hfault⟩ := Entries.traverse_eq_error h
    exact ih entry hentry hfault
  | set type =>
    cases h
    rfl
  | _ => cases h

theorem wellFormed_number (n : Number) : (Tagged.number n.text).WellFormed :=
  Tagged.wellFormed_iff.mpr ⟨⟨_, Number.read_text n⟩, by simp [Tagged.children]⟩

theorem wellFormed_of_toAttribute {tree : Tree} {attr : Tagged} (h : tree.toAttribute = .ok attr) :
    attr.WellFormed := by
  induction tree generalizing attr with
  | number n =>
    cases h
    exact wellFormed_number n
  | string text =>
    rw [toAttribute, pure_eq_ok] at h
    subst h
    split
    · exact Tagged.wellFormed_iff.mpr ⟨rfl, by simp [Form.null, Tagged.children]⟩
    · next hempty =>
      refine Tagged.wellFormed_iff.mpr ⟨?_, by simp [Form.string, Tagged.children]⟩
      exact fun heq => hempty (String.isEmpty_iff.mpr heq)
  | complex re im =>
    cases h
    refine Tagged.wellFormed_iff.mpr ⟨trivial, ?_⟩
    simp only [Form.list, Form.number, Tagged.children, List.forall_mem_cons, List.not_mem_nil, false_imp_iff,
      implies_true, and_true]
    exact ⟨wellFormed_number (.float re), wellFormed_number (.float im)⟩
  | list items ih =>
    rw [toAttribute_list, map_eq_ok] at h
    obtain ⟨attrs, hattrs, rfl⟩ := h
    refine Tagged.wellFormed_iff.mpr ⟨trivial, ?_⟩
    exact forall_mem_of_forall₂ (mapM_eq_ok_iff.mp hattrs) fun item hitem attr hattr => ih item hitem hattr
  | map entries ih =>
    rw [toAttribute_map, map_eq_ok] at h
    obtain ⟨attrs, hattrs, rfl⟩ := h
    refine Tagged.wellFormed_iff.mpr ⟨trivial, List.forall_mem_map.mpr ?_⟩
    exact forall_mem_of_forall₂ (Entries.traverse_eq_ok_iff.mp hattrs) fun entry hentry other hother =>
      ih entry hentry hother.2
  | set type => cases h
  | null =>
    cases h
    exact Tagged.wellFormed_iff.mpr ⟨rfl, by simp [Form.null, Tagged.children]⟩
  | _ =>
    cases h
    exact Tagged.wellFormed_iff.mpr ⟨trivial, by simp [Form.bool, Form.binary, Tagged.children]⟩

theorem exists_toAttribute_iff {α : Type} [Form α] [LawfulForm α] {tree : Tree} :
    (∃ attr : α, tree.toAttribute = .ok attr) ↔ tree.SetFree := by
  constructor
  · rintro ⟨attr, hattr⟩
    exact setFree_of_toAttribute hattr
  · intro h
    obtain ⟨attr, hattr, -⟩ := returns_normal (α := α) h
    exact ⟨attr, hattr⟩

theorem toAttribute_of_not_setFree {α : Type} [Form α] {tree : Tree} (h : ¬tree.SetFree) :
    tree.toAttribute = (.error (.unknownKind .unsupported) : Except Fault α) := by
  obtain ⟨fault, hfault⟩ := exists_error_iff.mpr fun attr : α => fun hattr => h (setFree_of_toAttribute hattr)
  rw [hfault, fault_eq_of_toAttribute hfault]

theorem toAttribute_of_toItem {α : Type} [Form α] {tree : Tree} {item : Entries α} (h : tree.toItem = .ok item) :
    (∃ entries, tree = map entries) ∧ tree.toAttribute = .ok (Form.map item) := by
  cases tree with
  | map entries =>
    rw [toItem, attributeEntries_eq_traverse] at h
    rw [toAttribute_map, h]
    exact ⟨⟨entries, rfl⟩, rfl⟩
  | _ => cases h

theorem exists_toItem_of_toAttribute {α : Type} [Form α] {entries : Entries Tree} {attr : α}
    (h : (map entries).toAttribute = .ok attr) : ∃ item : Entries α, (map entries).toItem = .ok item := by
  rw [toAttribute_map, map_eq_ok] at h
  obtain ⟨item, hitem, -⟩ := h
  rw [toItem, attributeEntries_eq_traverse]
  exact ⟨item, hitem⟩

theorem toAttribute_agrees (tree : Tree) :
    ((∃ attr : Members, tree.toAttribute = .ok attr) ↔ tree.SetFree) ∧
      ((∃ attr : Tagged, tree.toAttribute = .ok attr) ↔ tree.SetFree) ∧
      (¬tree.SetFree →
        tree.toAttribute = (.error (.unknownKind .unsupported) : Except Fault Members) ∧
          tree.toAttribute = (.error (.unknownKind .unsupported) : Except Fault Tagged)) ∧
      (∀ (attr : Members) (other : Tagged), tree.toAttribute = .ok attr → tree.toAttribute = .ok other →
        attr.write = other.write ∧ attr.WellFormed ∧ other.WellFormed) ∧
      ∀ {α : Type} [Form α],
        ((∃ item : Entries α, tree.toItem = .ok item) ↔
          (∃ entries, tree = map entries) ∧ ∃ attr : α, tree.toAttribute = .ok attr) ∧
        ∀ item : Entries α, tree.toItem = .ok item → tree.toAttribute = .ok (Form.map item) := by
  refine ⟨exists_toAttribute_iff, exists_toAttribute_iff,
    fun h => ⟨toAttribute_of_not_setFree h, toAttribute_of_not_setFree h⟩, fun attr other hattr hother => ?_,
    ⟨?_, ?_⟩, fun item hitem => (toAttribute_of_toItem hitem).2⟩
  · have hwell : other.WellFormed := wellFormed_of_toAttribute hother
    rw [toAttribute_eq_toMembers, hother] at hattr
    cases hattr
    exact ⟨other.write_toMembers, Tagged.wellFormed_toMembers.mpr hwell, hwell⟩
  · rintro ⟨item, hitem⟩
    obtain ⟨hmap, hattr⟩ := toAttribute_of_toItem hitem
    exact ⟨hmap, Form.map item, hattr⟩
  · rintro ⟨⟨entries, rfl⟩, attr, hattr⟩
    exact exists_toItem_of_toAttribute hattr

def mixed (rest : Tree) : Tree :=
  .list [.map (.ofList [("text", .string ""), ("point", .complex .nan .zero)] (by decide)), rest]

theorem toAttribute_agrees_mixed :
    (mixed .null).SetFree ∧ ¬(mixed (.set .number)).SetFree ∧
      (∃ attr : Members, ∃ other : Tagged, (mixed .null).toAttribute = .ok attr ∧
        (mixed .null).toAttribute = .ok other ∧ attr.write = other.write ∧ other.WellFormed) ∧
      (mixed (.set .number)).toAttribute = (.error (.unknownKind .unsupported) : Except Fault Tagged) := by
  have hfree : (mixed .null).SetFree := by decide
  have hset : ¬(mixed (.set .number)).SetFree := by decide
  obtain ⟨hmembers, htagged, -, hagree, -⟩ := toAttribute_agrees (mixed .null)
  obtain ⟨attr, hattr⟩ := hmembers.mpr hfree
  obtain ⟨other, hother⟩ := htagged.mpr hfree
  obtain ⟨hwrite, -, hwell⟩ := hagree attr other hattr hother
  exact ⟨hfree, hset, ⟨attr, other, hattr, hother, hwrite, hwell⟩, ((toAttribute_agrees _).2.2.1 hset).2⟩

end Tree

end AttributeCodec
