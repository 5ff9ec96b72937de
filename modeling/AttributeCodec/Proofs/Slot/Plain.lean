import AttributeCodec.Proofs.Slot.Finish
import AttributeCodec.Proofs.Tree.Attribute

/-! A notice brings no set and no empty text, and so there is none in a finished tree. -/

namespace AttributeCodec

open Attribute (Form LawfulForm)

namespace Tree

def Plain (tree : Tree) : Prop := ∀ node ∈ tree.nodes, node ≠ .string "" ∧ node.set? = none

theorem plain_list {items : List Tree} : (list items).Plain ↔ ∀ item ∈ items, item.Plain :=
  forall_nodes_list.trans (and_iff_right ⟨nofun, rfl⟩)

theorem plain_map {entries : Entries Tree} : (map entries).Plain ↔ ∀ entry ∈ entries.toList, entry.2.Plain :=
  forall_nodes_map.trans (and_iff_right ⟨nofun, rfl⟩)

theorem Plain.setFree {tree : Tree} (h : tree.Plain) : tree.SetFree := fun node hnode => (h node hnode).2

end Tree

theorem Notice.plain_of_leaf? {notice : Notice} {tree : Tree} (h : notice.leaf? = some tree) : tree.Plain := by
  cases notice with
  | list | map => cases h
  | string text =>
    cases h
    split
    · simp [Tree.Plain, Tree.nodes, Tree.set?]
    · next hne => simpa [Tree.Plain, Tree.nodes, Tree.set?] using hne
  | _ =>
    cases h
    simp [Tree.Plain, Tree.nodes, Tree.set?]

theorem Script.Describes.plain {script : Script} {tree : Tree} (h : script.Describes tree) : tree.Plain := by
  induction h with
  | leaf _ leaf => exact Notice.plain_of_leaf? leaf
  | list _ _ _ ih =>
    refine Tree.plain_list.mpr fun item hitem => ?_
    obtain ⟨index, hindex⟩ := List.mem_iff_getElem?.mp hitem
    exact ih index item hindex
  | map _ _ _ _ ih => exact Tree.plain_map.mpr ih

theorem Slot.plain_of_finish {script : Script} {tree : Tree} (h : (unset.run script).finish = .ok tree) :
    tree.Plain :=
  (describes_of_finish h).plain

end AttributeCodec
