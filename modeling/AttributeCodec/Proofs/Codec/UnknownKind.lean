import AttributeCodec.Codec
import AttributeCodec.Entity
import AttributeCodec.Proofs.Datum.Reached
import AttributeCodec.Proofs.Slot.Plain

/-! A fault of an unknown kind is one that the stored value or the hook has raised. -/

namespace AttributeCodec

open Attribute (Form LawfulForm Members Tagged)

namespace Datum

def Refused (hook : Hook) (fault : Fault) (datum : Datum) : Prop :=
  ∃ node ∈ datum.nodes, (hook.encode node).2 = .refuse fault

section Refused

variable {hook : Hook}

theorem refuse_of_check {node : Datum} {kind : Kind} (h : hook.check node = .error (.unknownKind kind)) :
    (hook.encode node).2 = .refuse (.unknownKind kind) := by
  rw [Hook.check] at h
  split at h
  · next hverdict =>
    cases h
    rw [hverdict]
  · split at h <;> cases h
  · cases node <;> cases h

theorem refused_of_encode {kind : Kind} {datum : Datum} (h : (encode hook false datum).2 = .error (.unknownKind kind)) :
    datum.Refused hook (.unknownKind kind) := by
  rw [encode_result] at h
  obtain ⟨node, hnode, hcheck⟩ := exists_mem_of_forM_eq_error h
  exact ⟨node, mem_nodes_of_mem_reached hnode, refuse_of_check hcheck⟩

end Refused

end Datum

theorem Encoding.tree_eq_unknownKind {encoding : Encoding} {kind : Kind}
    (h : encoding.tree = .error (.unknownKind kind)) : encoding.2 = .error (.unknownKind kind) := by
  rcases bind_eq_error.mp h with hresult | ⟨-, -, hfinish⟩
  · exact hresult
  · rw [Slot.finish] at hfinish
    cases htree : (Slot.unset.run encoding.1).tree with
    | error gap =>
      rw [htree] at hfinish
      cases hfinish
    | ok tree =>
      rw [htree] at hfinish
      cases hfinish

theorem Encoding.setFree_of_tree {encoding : Encoding} {tree : Tree} (h : encoding.tree = .ok tree) :
    tree.SetFree := by
  obtain ⟨-, -, hfinish⟩ := bind_eq_ok.mp h
  exact (Slot.plain_of_finish hfinish).setFree

theorem Tree.setFree_map_empty : (Tree.map .empty).SetFree := setFree_map.mpr fun _ hentry => nomatch hentry

section Outcomes

variable {α : Type} [Form α] [LawfulForm α] {tree : Tree} {kind : Kind}

theorem Tree.toAttribute_ne_unknownKind (h : tree.SetFree) :
    (tree.toAttribute : Except Fault α) ≠ .error (.unknownKind kind) := by
  obtain ⟨attr, hattr⟩ := exists_toAttribute_iff (α := α).mpr h
  rw [hattr]
  exact nofun

theorem Tree.attributeEntries_ne_unknownKind {entries : Entries Tree} (h : (map entries).SetFree) :
    (attributeEntries entries : Except Fault (Entries α)) ≠ .error (.unknownKind kind) := by
  obtain ⟨attr, hattr⟩ := exists_toAttribute_iff (α := α).mpr h
  obtain ⟨item, hitem⟩ := exists_toItem_of_toAttribute hattr
  rw [toItem] at hitem
  rw [hitem]
  intro h
  cases h

theorem Tree.toItem_ne_unknownKind (h : tree.SetFree) :
    (tree.toItem : Except Fault (Entries α)) ≠ .error (.unknownKind kind) := by
  cases tree with
  | map entries => exact attributeEntries_ne_unknownKind h
  | _ => exact nofun

end Outcomes

namespace KeyNames

variable {δ : Type} [Storable δ] {hook : Hook} {stored : δ} {trees : Entries Tree} {names : List String}

def Raises (hook : Hook) (stored : δ) (fault : Fault) (name : String) : Prop :=
  Storable.field stored name = .error fault ∨
    ∃ value, Storable.field stored name = .ok value ∧ value.Refused hook fault

theorem raises_of_treesOf {kind : Kind} (h : treesOf hook stored trees names = .error (.unknownKind kind)) :
    ∃ name ∈ names, Raises hook stored (.unknownKind kind) name := by
  induction names generalizing trees with
  | nil => cases h
  | cons name names ih =>
    rw [treesOf] at h
    rcases bind_eq_error.mp h with hfield | ⟨value, hvalue, h⟩
    · exact ⟨name, List.mem_cons_self, .inl hfield⟩
    rcases bind_eq_error.mp h with htree | ⟨tree, -, h⟩
    · have hrefused := Datum.refused_of_encode (Encoding.tree_eq_unknownKind htree)
      exact ⟨name, List.mem_cons_self, .inr ⟨value, hvalue, hrefused⟩⟩
    · obtain ⟨other, hother, hraises⟩ := ih h
      exact ⟨other, List.mem_cons_of_mem _ hother, hraises⟩

theorem setFree_of_treesOf {result : Entries Tree} (hfree : (Tree.map trees).SetFree)
    (h : treesOf hook stored trees names = .ok result) : (Tree.map result).SetFree := by
  induction names generalizing trees with
  | nil =>
    cases h
    exact hfree
  | cons name names ih =>
    rw [treesOf, bind_eq_ok] at h
    obtain ⟨value, -, h⟩ := h
    rw [bind_eq_ok] at h
    obtain ⟨tree, htree, h⟩ := h
    refine ih (Tree.setFree_map.mpr fun entry hentry => ?_) h
    have hget := Entries.get?_eq_some_iff.mpr hentry
    rw [Entries.get?_update] at hget
    split at hget
    · rw [← Option.some.inj hget]
      exact Encoding.setFree_of_tree htree
    · exact Tree.setFree_map.mp hfree entry (Entries.get?_eq_some_iff.mp hget)

end KeyNames

theorem Entity.refused_of_encode {entity : Entity} {hook : Hook} {kind : Kind}
    (h : (Storable.encode hook entity).2 = .error (.unknownKind kind)) :
    ∃ entry ∈ entity.fields.toList, entry.2.Refused hook (.unknownKind kind) := by
  rw [Entity.encode_eq_generic, Datum.generic_map, Datum.visits_result] at h
  obtain ⟨datum, hdatum, hfault⟩ := exists_mem_of_forM_eq_error h
  obtain ⟨entry, hentry, rfl⟩ := List.mem_map.mp hdatum
  exact ⟨entry, hentry, Datum.refused_of_encode hfault⟩

namespace Codec

structure UnknownKindsRaised (codec : Codec) (α : Type) [Form α] : Prop where
  encode : ∀ {δ : Type} [Storable δ] (stored : δ) kind,
    (codec.encode stored : Except Fault α) = .error (.unknownKind kind) →
      (Storable.encode codec.hook stored).2 = .error (.unknownKind kind)
  encodeItem : ∀ {δ : Type} [Storable δ] (stored : δ) kind,
    (codec.encodeItem stored : Except Fault (Entries α)) = .error (.unknownKind kind) →
      (Storable.encode codec.hook stored).2 = .error (.unknownKind kind)
  encodeDatum : ∀ (datum : Datum) kind,
    (codec.encodeDatum datum : Except Fault α) = .error (.unknownKind kind) →
      datum.Refused codec.hook (.unknownKind kind)
  key : ∀ {δ : Type} [Storable δ] (stored : δ) kind,
    (codec.key stored : Except Fault (Entries α)) = .error (.unknownKind kind) →
      ∃ keys, codec.keys? = some keys ∧
        ∃ name ∈ keys.names, KeyNames.Raises codec.hook stored (.unknownKind kind) name

theorem unknownKindsRaised (codec : Codec) (α : Type) [Form α] [LawfulForm α] : codec.UnknownKindsRaised α where
  encode stored kind h := by
    rcases bind_eq_error.mp h with htree | ⟨tree, htree, hattr⟩
    · exact Encoding.tree_eq_unknownKind htree
    · exact absurd hattr (Tree.toAttribute_ne_unknownKind (Encoding.setFree_of_tree htree))
  encodeItem stored kind h := by
    rcases bind_eq_error.mp h with htree | ⟨tree, htree, hitem⟩
    · exact Encoding.tree_eq_unknownKind htree
    · exact absurd hitem (Tree.toItem_ne_unknownKind (Encoding.setFree_of_tree htree))
  encodeDatum datum kind h := by
    rcases bind_eq_error.mp h with htree | ⟨tree, htree, hattr⟩
    · exact Datum.refused_of_encode (Encoding.tree_eq_unknownKind htree)
    · exact absurd hattr (Tree.toAttribute_ne_unknownKind (Encoding.setFree_of_tree htree))
  key stored kind h := by
    rw [Codec.key] at h
    split at h
    · next keys hkeys =>
      rcases bind_eq_error.mp h with htrees | ⟨trees, htrees, hentries⟩
      · exact ⟨keys, hkeys, KeyNames.raises_of_treesOf htrees⟩
      · have hfree : (Tree.map trees).SetFree := KeyNames.setFree_of_treesOf Tree.setFree_map_empty htrees
        exact absurd hentries (Tree.attributeEntries_ne_unknownKind hfree)
    · cases h

theorem unknownKinds_raised (codec : Codec) :
    (∀ script tree, (Slot.unset.run script).finish = .ok tree →
      tree.Plain ∧ (∃ attr : Members, tree.toAttribute = .ok attr) ∧ ∃ attr : Tagged, tree.toAttribute = .ok attr) ∧
      codec.UnknownKindsRaised Members ∧ codec.UnknownKindsRaised Tagged ∧
      ∀ (entity : Entity) kind, (Storable.encode codec.hook entity).2 = .error (.unknownKind kind) →
        ∃ entry ∈ entity.fields.toList, entry.2.Refused codec.hook (.unknownKind kind) := by
  refine ⟨fun script tree hfinish => ?_, codec.unknownKindsRaised Members, codec.unknownKindsRaised Tagged,
    fun entity kind h => Entity.refused_of_encode h⟩
  have hplain := Slot.plain_of_finish hfinish
  exact ⟨hplain, Tree.exists_toAttribute_iff.mpr hplain.setFree, Tree.exists_toAttribute_iff.mpr hplain.setFree⟩

-- Refuses truth values with a fault that is the renderer's.
def grudging : Hook where
  encode
    | .bool _ => ([], .refuse (.unknownKind .bool))
    | _ => ([], .decline)
  encode_inRange datum := by cases datum <;> rfl
  decode _ _ := return none

def flagged : Entity := Entity.set {} "flag" (.bool true)

theorem unknownKind_by_grudging :
    (Codec.encode ⟨grudging, none⟩ flagged : Except Fault Members) = .error (.unknownKind .bool) ∧
      (Codec.encodeItem ⟨grudging, none⟩ flagged : Except Fault (Entries Members)) = .error (.unknownKind .bool) ∧
      (Codec.encodeDatum ⟨grudging, none⟩ (.bool true) : Except Fault Members) = .error (.unknownKind .bool) ∧
      (Codec.key ⟨grudging, some ⟨"flag", none⟩⟩ flagged : Except Fault (Entries Members)) =
        .error (.unknownKind .bool) :=
  ⟨rfl, rfl, rfl, rfl⟩

def scribbling : Hook where
  encode
    | .timestamp _ => ([.list 2 [(1, [.null])], .string ""], .accept)
    | _ => ([], .decline)
  encode_inRange datum := by cases datum <;> rfl
  decode _ _ := return none

def twiceTold : Script := [.int 1, .list 1 [(0, [.bool true, .string ""])]]

theorem unknownKinds_raised_scribbling :
    (∃ tree, (Slot.unset.run twiceTold).finish = .ok tree ∧ tree.Plain) ∧
      ∀ (datum : Datum) kind,
        (encodeDatum ⟨scribbling, none⟩ datum : Except Fault Tagged) ≠ .error (.unknownKind kind) := by
  obtain ⟨hplain, -, htagged, -⟩ := unknownKinds_raised ⟨scribbling, none⟩
  have hfinish : (Slot.unset.run twiceTold).finish = .ok (.list [.null]) := rfl
  refine ⟨⟨_, hfinish, (hplain _ _ hfinish).1⟩, fun datum kind h => ?_⟩
  obtain ⟨node, -, hrefuse⟩ := htagged.encodeDatum datum kind h
  cases node <;> cases hrefuse

end Codec

end AttributeCodec
