import AttributeCodec.Datum.Decode
import AttributeCodec.Proofs.Attribute.View
import AttributeCodec.Proofs.Tree.Parts

/-! An attribute that has a tree answers every question, to any depth, as the tree does. -/

namespace AttributeCodec.Attribute

namespace View

theorem numberReader_of_read {text : String} {n : Number} (h : Number.read text = .ok n) :
    numberReader text = n.reader := by
  rw [numberReader, h]
  rfl

theorem reader_of_tree {view : View} {t : Tree} (h : view.tree = .ok t) : view.reader = t.reader := by
  induction view generalizing t with
  | null | bool | binary | set =>
    cases h
    rfl
  | number text =>
    simp only [tree, bind_eq_ok, pure_eq_ok] at h
    obtain ⟨n, hn, rfl⟩ := h
    exact numberReader_of_read hn
  | string text =>
    cases h
    simp only [reader, Tree.ofText]
    split <;> rfl
  | list items ih =>
    simp only [tree_list, bind_eq_ok, pure_eq_ok, mapM_eq_ok_iff] at h
    obtain ⟨trees, hall, rfl⟩ := h
    rw [reader_list, Tree.reader_list, map_eq_map_of_forall₂ hall fun item hitem t ht => ih item hitem ht]
  | map entries ih =>
    simp only [tree_map, bind_eq_ok, pure_eq_ok] at h
    obtain ⟨trees, hall, rfl⟩ := h
    rw [reader_map, Tree.reader_map,
      Entries.map_eq_map_of_traverse hall fun entry hentry t ht => ih entry hentry ht]
  | empty => simp [tree] at h

end View

variable {α : Type} [Form α]

theorem reader_eq_of_tree {attr : α} {t : Tree} (h : tree attr = .ok t) :
    reader attr = t.reader ∧
      ∀ (hook : Hook) (type : DatumType),
        (reader attr).decode hook type = t.reader.decode hook type := by
  have heq : reader attr = t.reader := View.reader_of_tree h
  exact ⟨heq, fun hook type => by rw [heq]⟩

def emptyAndThousand : Members :=
  { list? := some [{ string? := some "" }, { number? := some "1e3" }], numberSet? := some ["2"] }

theorem reader_eq_of_tree_emptyAndThousand :
    tree emptyAndThousand = .ok (.list [.null, .number (.int 1000)]) ∧
      reader emptyAndThousand = Tree.reader (.list [.null, .number (.int 1000)]) := by
  have hread : Number.read "1e3" = .ok (.int 1000) := by decide +kernel
  have htree : tree emptyAndThousand = .ok (.list [.null, .number (.int 1000)]) := by
    show View.tree (.list [.string "", .number "1e3"]) = _
    simp only [View.tree, View.treeItems, hread]
    rfl
  exact ⟨htree, (reader_eq_of_tree htree).1⟩

end AttributeCodec.Attribute
