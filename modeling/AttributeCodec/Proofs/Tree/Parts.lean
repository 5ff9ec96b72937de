import AttributeCodec.Proofs.Traversal
import AttributeCodec.Tree.Attribute
import AttributeCodec.Tree.Reader

namespace AttributeCodec.Tree

@[induction_eliminator]
theorem induction {motive : Tree → Prop} (null : motive null) (bool : ∀ value, motive (bool value))
    (number : ∀ n, motive (number n)) (bytes : ∀ value, motive (bytes value))
    (string : ∀ text, motive (string text)) (complex : ∀ re im, motive (complex re im))
    (list : ∀ items, (∀ item ∈ items, motive item) → motive (list items))
    (map : ∀ entries, (∀ entry ∈ entries.toList, motive entry.2) → motive (map entries))
    (set : ∀ type, motive (set type)) (tree : Tree) : motive tree := by
  refine Tree.rec (motive_1 := motive) (motive_2 := fun items => ∀ item ∈ items, motive item)
    (motive_3 := fun entries => ∀ entry ∈ entries.toList, motive entry.2)
    (motive_4 := fun _ fields => ∀ entry ∈ fields.toList, motive entry.2)
    null bool number bytes string complex list map set ?_ ?_ ?_ ?_ ?_ tree
  · simp
  · intro item items hitem hitems
    exact List.forall_mem_cons.mpr ⟨hitem, hitems⟩
  · intro names distinct fields hfields
    exact hfields
  · simp [Fields.toList]
  · intro names name value rest hvalue hrest
    exact List.forall_mem_cons.mpr ⟨hvalue, hrest⟩

theorem itemReaders_eq_map (items : List Tree) : itemReaders items = items.map reader := by
  induction items with
  | nil => rfl
  | cons item items ih => rw [itemReaders, ih, List.map_cons]

theorem fieldReaders_eq_map {names : List String} (fields : Fields Tree names) :
    fieldReaders fields = fields.map reader := by
  induction fields with
  | nil => rfl
  | cons name value rest ih => rw [fieldReaders, ih, Fields.map]

theorem reader_list (items : List Tree) : (list items).reader = .ofItems (items.map reader) := by
  rw [reader, itemReaders_eq_map]

theorem reader_map (entries : Entries Tree) :
    (map entries).reader = .ofEntries (entries.map reader) := by
  rw [reader, entryReaders, fieldReaders_eq_map, Entries.map]

theorem attributeItems_eq_mapM {α : Type} [Attribute.Form α] (items : List Tree) :
    attributeItems (α := α) items = items.mapM toAttribute := by
  induction items with
  | nil => rfl
  | cons item items ih => rw [attributeItems, ih, List.mapM_cons]

theorem attributeFields_eq_traverse {α : Type} [Attribute.Form α] {names : List String}
    (fields : Fields Tree names) :
    attributeFields (α := α) fields = fields.traverse fun _ => toAttribute := by
  induction fields with
  | nil => rfl
  | cons name value rest ih => rw [attributeFields, ih, Fields.traverse]

theorem attributeEntries_eq_traverse {α : Type} [Attribute.Form α] (entries : Entries Tree) :
    attributeEntries (α := α) entries = entries.traverse fun _ => toAttribute := by
  rw [attributeEntries, attributeFields_eq_traverse, Entries.traverse]

mutual

def nodes : Tree → List Tree
  | list items => list items :: nodesOfItems items
  | map entries => map entries :: nodesOfEntries entries
  | tree => [tree]

def nodesOfItems : List Tree → List Tree
  | [] => []
  | item :: items => nodes item ++ nodesOfItems items

def nodesOfEntries : Entries Tree → List Tree
  | ⟨_, _, fields⟩ => nodesOfFields fields

def nodesOfFields {names : List String} : Fields Tree names → List Tree
  | .nil => []
  | .cons _ value rest => nodes value ++ nodesOfFields rest

end

theorem mem_nodesOfItems {node : Tree} {items : List Tree} :
    node ∈ nodesOfItems items ↔ ∃ item ∈ items, node ∈ item.nodes := by
  induction items with
  | nil => simp [nodesOfItems]
  | cons item items ih => simp [nodesOfItems, ih]

theorem mem_nodesOfFields {node : Tree} {names : List String} {fields : Fields Tree names} :
    node ∈ nodesOfFields fields ↔ ∃ entry ∈ fields.toList, node ∈ entry.2.nodes := by
  induction fields with
  | nil => simp [nodesOfFields, Fields.toList]
  | cons name value rest ih =>
    simp only [nodesOfFields, List.mem_append, ih, Fields.toList, List.exists_mem_cons_iff]

theorem mem_nodesOfEntries {node : Tree} {entries : Entries Tree} :
    node ∈ nodesOfEntries entries ↔ ∃ entry ∈ entries.toList, node ∈ entry.2.nodes := by
  rw [nodesOfEntries, mem_nodesOfFields]
  rfl

section ForallNodes

variable {p : Tree → Prop}

theorem forall_nodes_list {items : List Tree} :
    (∀ node ∈ (list items).nodes, p node) ↔ p (list items) ∧ ∀ item ∈ items, ∀ node ∈ item.nodes, p node := by
  simp only [nodes, List.forall_mem_cons, mem_nodesOfItems]
  refine and_congr_right fun _ => ⟨fun h item hitem node hnode => h node ⟨item, hitem, hnode⟩, ?_⟩
  rintro h node ⟨item, hitem, hnode⟩
  exact h item hitem node hnode

theorem forall_nodes_map {entries : Entries Tree} :
    (∀ node ∈ (map entries).nodes, p node) ↔
      p (map entries) ∧ ∀ entry ∈ entries.toList, ∀ node ∈ entry.2.nodes, p node := by
  simp only [nodes, List.forall_mem_cons, mem_nodesOfEntries]
  refine and_congr_right fun _ => ⟨fun h entry hentry node hnode => h node ⟨entry, hentry, hnode⟩, ?_⟩
  rintro h node ⟨entry, hentry, hnode⟩
  exact h entry hentry node hnode

end ForallNodes

def SetFree (tree : Tree) : Prop := ∀ node ∈ tree.nodes, node.set? = none

instance (tree : Tree) : Decidable tree.SetFree := inferInstanceAs (Decidable (∀ node ∈ tree.nodes, _))

theorem setFree_list {items : List Tree} : (list items).SetFree ↔ ∀ item ∈ items, item.SetFree :=
  forall_nodes_list.trans (and_iff_right rfl)

theorem setFree_map {entries : Entries Tree} :
    (map entries).SetFree ↔ ∀ entry ∈ entries.toList, entry.2.SetFree :=
  forall_nodes_map.trans (and_iff_right rfl)

theorem not_setFree_set (type : SetType) : ¬(set type).SetFree := fun h => by
  simpa [set?] using h (set type) (.head _)

end AttributeCodec.Tree
