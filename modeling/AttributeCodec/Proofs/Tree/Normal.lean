import AttributeCodec.Attribute.Tree
import AttributeCodec.Proofs.Attribute.Lawful
import AttributeCodec.Proofs.Attribute.View
import AttributeCodec.Proofs.Number.Text
import AttributeCodec.Proofs.Tree.Parts

/-! The tree of a tree's attribute is the tree in normal form: numbers narrowed, empty strings null and complex
numbers lists of two. -/

namespace AttributeCodec

def Number.narrowed (n : Number) : Number := ofBinary64 n.toBinary64

theorem Number.narrowed_ofBinary64 (x : Binary64) : (ofBinary64 x).narrowed = ofBinary64 x :=
  ofBinary64_toBinary64_ofBinary64 x

theorem Number.narrowed_of_read {text : String} {n : Number} (h : read text = .ok n) : n.narrowed = n := by
  unfold read at h
  split at h
  · split at h
    · simp at h
    · cases h
      exact narrowed_ofBinary64 _
  · simp at h

namespace Tree

mutual

def normal : Tree → Tree
  | null => null
  | bool value => bool value
  | number n => number n.narrowed
  | bytes value => bytes value
  | string text => ofText text
  | complex re im => list [number (.ofBinary64 re), number (.ofBinary64 im)]
  | list items => list (normalItems items)
  | map entries => map (normalEntries entries)
  | set type => set type

def normalItems : List Tree → List Tree
  | [] => []
  | item :: items => normal item :: normalItems items

def normalEntries : Entries Tree → Entries Tree
  | ⟨names, distinct, fields⟩ => ⟨names, distinct, normalFields fields⟩

def normalFields {names : List String} : Fields Tree names → Fields Tree names
  | .nil => .nil
  | .cons name value rest => .cons name (normal value) (normalFields rest)

end

theorem normalItems_eq_map (items : List Tree) : normalItems items = items.map normal := by
  induction items with
  | nil => rfl
  | cons item items ih => rw [normalItems, ih, List.map_cons]

theorem normalFields_eq_map {names : List String} (fields : Fields Tree names) :
    normalFields fields = fields.map normal := by
  induction fields with
  | nil => rfl
  | cons name value rest ih => rw [normalFields, ih, Fields.map]

theorem normal_list (items : List Tree) : (list items).normal = list (items.map normal) := by
  rw [normal, normalItems_eq_map]

theorem normal_map (entries : Entries Tree) : (map entries).normal = map (entries.map normal) := by
  rw [normal, normalEntries, normalFields_eq_map, Entries.map]

theorem normal_ofText (text : String) : (ofText text).normal = ofText text := by
  unfold ofText
  split
  · rw [normal]
  · next h => rw [normal, ofText, if_neg h]

theorem normal_normal (tree : Tree) : tree.normal.normal = tree.normal := by
  induction tree with
  | null | bool | bytes | set => rfl
  | number n => simp only [normal, Number.narrowed, Number.ofBinary64_toBinary64_ofBinary64]
  | string text => exact normal_ofText text
  | complex re im => simp only [normal, normalItems, Number.narrowed_ofBinary64]
  | list items ih =>
    rw [normal_list, normal_list, map_eq_self (List.forall_mem_map.mpr ih)]
  | map entries ih =>
    rw [normal_map, normal_map, Entries.map_eq_self]
    exact (Entries.forall_mem_map (p := fun t : Tree => t.normal = t)).mpr ih

end Tree

namespace Attribute

namespace View

theorem normal_of_tree {view : View} {t : Tree} (h : view.tree = .ok t) : t.normal = t := by
  induction view generalizing t with
  | null | bool | binary | set =>
    cases h
    rfl
  | number text =>
    simp only [tree, bind_eq_ok, pure_eq_ok] at h
    obtain ⟨n, hn, rfl⟩ := h
    rw [Tree.normal, Number.narrowed_of_read hn]
  | string text =>
    cases h
    exact Tree.normal_ofText text
  | list items ih =>
    simp only [tree_list, bind_eq_ok, pure_eq_ok, mapM_eq_ok_iff] at h
    obtain ⟨trees, hall, rfl⟩ := h
    rw [Tree.normal_list, map_eq_self]
    exact forall_mem_of_forall₂ hall fun item hitem t ht => ih item hitem ht
  | map entries ih =>
    simp only [tree_map, bind_eq_ok, pure_eq_ok] at h
    obtain ⟨trees, hall, rfl⟩ := h
    rw [Tree.normal_map, Entries.map_eq_self]
    exact forall_mem_of_forall₂ (Entries.traverse_eq_ok_iff.mp hall) fun entry hentry t ht =>
      ih entry hentry ht.2
  | empty => simp [tree] at h

end View

theorem itemFields_eq_traverse {α : Type} [Form α] {names : List String} (fields : Fields α names) :
    itemFields fields = fields.traverse fun _ => tree := by
  induction fields with
  | nil => rfl
  | cons name value rest ih => rw [itemFields, ih, Fields.traverse]

end Attribute

namespace Tree

open Attribute (Form LawfulForm Members Tagged)

def Returns (α : Type) [Form α] (tree result : Tree) : Prop :=
  ∃ attr : α, tree.toAttribute = .ok attr ∧ Attribute.tree attr = .ok result

section

variable {α : Type} [Form α] [LawfulForm α]

theorem tree_number (n : Number) : Attribute.tree (Form.number n.text : α) = .ok (number n.narrowed) := by
  rw [Attribute.tree, LawfulForm.view_number, Attribute.View.tree, Number.read_text]
  rfl

theorem tree_list_eq_mapM (items : List α) :
    Attribute.tree (Form.list items) = return .list (← items.mapM Attribute.tree) := by
  rw [Attribute.tree, LawfulForm.view_list, Attribute.View.tree_list, List.mapM_map]
  rfl

theorem tree_map_eq_traverse (entries : Entries α) :
    Attribute.tree (Form.map entries) = return .map (← entries.traverse fun _ => Attribute.tree) := by
  rw [Attribute.tree, LawfulForm.view_map, Attribute.View.tree_map, Entries.traverse_map]
  rfl

theorem returns_normal {tree : Tree} (h : tree.SetFree) : tree.Returns α tree.normal := by
  induction tree with
  | null => exact ⟨Form.null, rfl, by rw [Attribute.tree, LawfulForm.view_null]; rfl⟩
  | bool value => exact ⟨Form.bool value, rfl, by rw [Attribute.tree, LawfulForm.view_bool]; rfl⟩
  | number n => exact ⟨Form.number n.text, rfl, tree_number n⟩
  | bytes value => exact ⟨Form.binary value, rfl, by rw [Attribute.tree, LawfulForm.view_binary]; rfl⟩
  | string text =>
    by_cases hempty : text.isEmpty = true
    · refine ⟨Form.null, by rw [toAttribute, if_pos hempty]; rfl, ?_⟩
      rw [Attribute.tree, LawfulForm.view_null, normal, ofText, if_pos hempty]
      rfl
    · refine ⟨Form.string text, by rw [toAttribute, if_neg hempty]; rfl, ?_⟩
      rw [Attribute.tree, LawfulForm.view_string]
      rfl
  | complex re im =>
    refine ⟨Form.list [Form.number re.text, Form.number im.text], rfl, ?_⟩
    have hre : Attribute.tree (Form.number re.text : α) = .ok (number (.ofBinary64 re)) :=
      tree_number (.float re)
    have him : Attribute.tree (Form.number im.text : α) = .ok (number (.ofBinary64 im)) :=
      tree_number (.float im)
    rw [tree_list_eq_mapM, List.mapM_cons, List.mapM_cons, hre, him]
    rfl
  | list items ih =>
    obtain ⟨attrs, hattrs, htrees⟩ :=
      exists_mapM_mapM fun item hitem => ih item hitem (setFree_list.mp h item hitem)
    refine ⟨Form.list attrs, ?_, ?_⟩
    · rw [toAttribute, attributeItems_eq_mapM, hattrs]
      rfl
    · rw [tree_list_eq_mapM, htrees, normal_list]
      rfl
  | map entries ih =>
    obtain ⟨attrs, hattrs, htrees⟩ : ∃ attrs, entries.traverse (fun _ => toAttribute) = .ok attrs ∧
        attrs.traverse (fun _ => Attribute.tree (α := α)) = .ok (entries.map normal) := by
      apply Entries.exists_traverse_traverse
      intro entry hentry
      exact ih entry hentry (setFree_map.mp h entry hentry)
    refine ⟨Form.map attrs, ?_, ?_⟩
    · rw [toAttribute, attributeEntries_eq_traverse, hattrs]
      rfl
    · rw [tree_map_eq_traverse, htrees, normal_map]
      rfl
  | set type => exact absurd h (not_setFree_set type)

theorem itemTree_eq_tree (item : Entries α) : Attribute.itemTree item = Attribute.tree (Form.map item) := by
  rw [tree_map_eq_traverse, Attribute.itemTree, Attribute.itemFields_eq_traverse, Entries.traverse]
  cases item.fields.traverse fun _ => Attribute.tree <;> rfl

theorem exists_toItem {entries : Entries Tree} (h : (map entries).SetFree) :
    ∃ item : Entries α, (map entries).toItem = .ok item ∧
      Attribute.itemTree item = .ok (map entries).normal := by
  obtain ⟨attr, hattr, htree⟩ := returns_normal (α := α) h
  simp only [toAttribute, bind_eq_ok, pure_eq_ok] at hattr
  obtain ⟨item, hitem, rfl⟩ := hattr
  exact ⟨item, hitem, (itemTree_eq_tree item).trans htree⟩

end

theorem returns_normal_of_setFree {tree : Tree} (h : tree.SetFree) :
    (tree.Returns Members tree.normal ∧ tree.Returns Tagged tree.normal) ∧
      tree.normal.normal = tree.normal ∧
      ∀ {α : Type} [Form α] (attr : α), Attribute.tree attr = .ok tree →
        tree.Returns Members tree ∧ tree.Returns Tagged tree := by
  refine ⟨⟨returns_normal h, returns_normal h⟩, normal_normal tree, fun attr hattr => ?_⟩
  have hnormal : tree.normal = tree := Attribute.View.normal_of_tree hattr
  constructor
  · simpa only [hnormal] using returns_normal (α := Members) h
  · simpa only [hnormal] using returns_normal (α := Tagged) h

def collapsing : Tree := .list [.string "", .complex .nan .zero, .number (.uint 9007199254740993)]

theorem returns_normal_of_setFree_collapsing :
    collapsing.SetFree ∧
      collapsing.Returns Members
        (.list [.null, .list [.number (.float .nan), .number (.int 0)],
          .number (.int 9007199254740992)]) := by
  have hfree : collapsing.SetFree := by decide
  have hzero : Number.ofBinary64 .zero = .int 0 := by decide +kernel
  have hnan : Number.ofBinary64 .nan = .float .nan := rfl
  have hnumber : (Number.uint 9007199254740993).narrowed = .int 9007199254740992 := by decide +kernel
  have hreturns := (returns_normal_of_setFree hfree).1.1
  simp only [collapsing, normal, normalItems, hzero, hnan, hnumber] at hreturns
  exact ⟨hfree, hreturns⟩

end Tree

end AttributeCodec
