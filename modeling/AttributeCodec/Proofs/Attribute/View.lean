import AttributeCodec.Attribute.Reader
import AttributeCodec.Attribute.Tree
import AttributeCodec.Proofs.Traversal

namespace AttributeCodec.Attribute.View

@[induction_eliminator]
theorem induction {motive : View → Prop} (null : motive null) (bool : ∀ value, motive (bool value))
    (number : ∀ text, motive (number text)) (binary : ∀ bytes, motive (binary bytes))
    (string : ∀ text, motive (string text))
    (list : ∀ items, (∀ item ∈ items, motive item) → motive (list items))
    (map : ∀ entries, (∀ entry ∈ entries.toList, motive entry.2) → motive (map entries))
    (set : ∀ type, motive (set type)) (empty : motive empty) (view : View) : motive view := by
  refine View.rec (motive_1 := motive) (motive_2 := fun items => ∀ item ∈ items, motive item)
    (motive_3 := fun entries => ∀ entry ∈ entries.toList, motive entry.2)
    (motive_4 := fun _ fields => ∀ entry ∈ fields.toList, motive entry.2)
    null bool number binary string list map set empty ?_ ?_ ?_ ?_ ?_ view
  · simp
  · intro item items hitem hitems
    exact List.forall_mem_cons.mpr ⟨hitem, hitems⟩
  · intro names distinct fields hfields
    exact hfields
  · simp [Fields.toList]
  · intro names name value rest hvalue hrest
    exact List.forall_mem_cons.mpr ⟨hvalue, hrest⟩

theorem treeItems_eq_mapM (items : List View) : treeItems items = items.mapM tree := by
  induction items with
  | nil => rfl
  | cons item items ih => rw [treeItems, ih, List.mapM_cons]

theorem treeFields_eq_traverse {names : List String} (fields : Fields View names) :
    treeFields fields = fields.traverse fun _ => tree := by
  induction fields with
  | nil => rfl
  | cons name value rest ih => rw [treeFields, ih, Fields.traverse]

theorem treeEntries_eq_traverse (entries : Entries View) :
    treeEntries entries = entries.traverse fun _ => tree := by
  rw [treeEntries, treeFields_eq_traverse, Entries.traverse]

theorem readerItems_eq_map (items : List View) : readerItems items = items.map reader := by
  induction items with
  | nil => rfl
  | cons item items ih => rw [readerItems, ih, List.map_cons]

theorem readerFields_eq_map {names : List String} (fields : Fields View names) :
    readerFields fields = fields.map reader := by
  induction fields with
  | nil => rfl
  | cons name value rest ih => rw [readerFields, ih, Fields.map]

theorem readerEntries_eq_map (entries : Entries View) : readerEntries entries = entries.map reader := by
  rw [readerEntries, readerFields_eq_map, Entries.map]

theorem tree_list (items : List View) :
    (list items).tree = return .list (← items.mapM tree) := by
  rw [tree, treeItems_eq_mapM]

theorem tree_map (entries : Entries View) :
    (map entries).tree = return .map (← entries.traverse fun _ => tree) := by
  rw [tree, treeEntries_eq_traverse]

theorem reader_list (items : List View) : (list items).reader = .ofItems (items.map reader) := by
  rw [reader, readerItems_eq_map]

theorem reader_map (entries : Entries View) :
    (map entries).reader = .ofEntries (entries.map reader) := by
  rw [reader, readerEntries_eq_map]

mutual

def nodes : View → List View
  | list items => list items :: nodesOfItems items
  | map entries => map entries :: nodesOfEntries entries
  | view => [view]

def nodesOfItems : List View → List View
  | [] => []
  | item :: items => nodes item ++ nodesOfItems items

def nodesOfEntries : Entries View → List View
  | ⟨_, _, fields⟩ => nodesOfFields fields

def nodesOfFields {names : List String} : Fields View names → List View
  | .nil => []
  | .cons _ value rest => nodes value ++ nodesOfFields rest

end

theorem mem_nodesOfItems {part : View} {items : List View} :
    part ∈ nodesOfItems items ↔ ∃ item ∈ items, part ∈ item.nodes := by
  induction items with
  | nil => simp [nodesOfItems]
  | cons item items ih => simp [nodesOfItems, ih]

theorem mem_nodesOfFields {part : View} {names : List String} {fields : Fields View names} :
    part ∈ nodesOfFields fields ↔ ∃ entry ∈ fields.toList, part ∈ entry.2.nodes := by
  induction fields with
  | nil => simp [nodesOfFields, Fields.toList]
  | cons name value rest ih =>
    simp only [nodesOfFields, List.mem_append, ih, Fields.toList, List.exists_mem_cons_iff]

theorem mem_nodes_list {part : View} {items : List View} :
    part ∈ (list items).nodes ↔ part = list items ∨ ∃ item ∈ items, part ∈ item.nodes := by
  rw [nodes, List.mem_cons, mem_nodesOfItems]

theorem mem_nodes_map {part : View} {entries : Entries View} :
    part ∈ (map entries).nodes ↔
      part = map entries ∨ ∃ entry ∈ entries.toList, part ∈ entry.2.nodes := by
  rw [nodes, List.mem_cons, nodesOfEntries, mem_nodesOfFields]
  rfl

end AttributeCodec.Attribute.View
