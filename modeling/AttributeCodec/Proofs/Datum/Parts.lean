import AttributeCodec.Datum.Basic
import AttributeCodec.Instant.Text
import AttributeCodec.Proofs.Entries
import AttributeCodec.Proofs.Tree.Parts

namespace AttributeCodec.Datum

@[induction_eliminator]
theorem induction {motive : Datum → Prop} (null : motive null) (bool : ∀ value, motive (bool value))
    (int : ∀ value, motive (int value)) (uint : ∀ value, motive (uint value))
    (float : ∀ value, motive (float value)) (complex : ∀ re im, motive (complex re im))
    (bytes : ∀ value, motive (bytes value)) (string : ∀ text, motive (string text))
    (timestamp : ∀ instant, motive (timestamp instant))
    (list : ∀ items, (∀ item ∈ items, motive item) → motive (list items))
    (map : ∀ entries, (∀ entry ∈ entries.toList, motive entry.2) → motive (map entries))
    (datum : Datum) : motive datum := by
  refine Datum.rec (motive_1 := motive) (motive_2 := fun items => ∀ item ∈ items, motive item)
    (motive_3 := fun entries => ∀ entry ∈ entries.toList, motive entry.2)
    (motive_4 := fun _ fields => ∀ entry ∈ fields.toList, motive entry.2)
    null bool int uint float complex bytes string timestamp list map ?_ ?_ ?_ ?_ ?_ datum
  · simp
  · intro item items hitem hitems
    exact List.forall_mem_cons.mpr ⟨hitem, hitems⟩
  · intro names ascending fields hfields
    exact hfields
  · simp [Fields.toList]
  · intro names name value rest hvalue hrest
    exact List.forall_mem_cons.mpr ⟨hvalue, hrest⟩

mutual

def nodes : Datum → List Datum
  | list items => list items :: nodesOfItems items
  | map entries => map entries :: nodesOfEntries entries
  | datum => [datum]

def nodesOfItems : List Datum → List Datum
  | [] => []
  | item :: items => nodes item ++ nodesOfItems items

def nodesOfEntries : SortedEntries Datum → List Datum
  | ⟨_, _, fields⟩ => nodesOfFields fields

def nodesOfFields {names : List String} : Fields Datum names → List Datum
  | .nil => []
  | .cons _ value rest => nodes value ++ nodesOfFields rest

end

theorem mem_nodesOfItems {node : Datum} {items : List Datum} :
    node ∈ nodesOfItems items ↔ ∃ item ∈ items, node ∈ item.nodes := by
  induction items with
  | nil => simp [nodesOfItems]
  | cons item items ih => simp [nodesOfItems, ih]

theorem mem_nodesOfFields {node : Datum} {names : List String} {fields : Fields Datum names} :
    node ∈ nodesOfFields fields ↔ ∃ entry ∈ fields.toList, node ∈ entry.2.nodes := by
  induction fields with
  | nil => simp [nodesOfFields, Fields.toList]
  | cons name value rest ih =>
    simp only [nodesOfFields, List.mem_append, ih, Fields.toList, List.exists_mem_cons_iff]

theorem mem_nodesOfEntries {node : Datum} {entries : SortedEntries Datum} :
    node ∈ nodesOfEntries entries ↔ ∃ entry ∈ entries.toList, node ∈ entry.2.nodes := by
  rw [nodesOfEntries, mem_nodesOfFields]
  rfl

theorem mem_nodes (datum : Datum) : datum ∈ datum.nodes := by
  cases datum <;> simp [nodes]

theorem forall_nodes_of_item {p : Datum → Prop} {items : List Datum}
    (h : ∀ node ∈ (list items).nodes, p node) :
    ∀ item ∈ items, ∀ node ∈ item.nodes, p node := fun item hitem node hnode =>
  h node (List.mem_cons_of_mem _ (mem_nodesOfItems.mpr ⟨item, hitem, hnode⟩))

theorem forall_nodes_of_entry {p : Datum → Prop} {entries : SortedEntries Datum}
    (h : ∀ node ∈ (map entries).nodes, p node) :
    ∀ entry ∈ entries.toList, ∀ node ∈ entry.2.nodes, p node := fun entry hentry node hnode =>
  h node (List.mem_cons_of_mem _ (mem_nodesOfEntries.mpr ⟨entry, hentry, hnode⟩))

mutual

def tree : Datum → Tree
  | null => .null
  | bool value => .bool value
  | int value => .number (.int value)
  | uint value => .number (.uint value)
  | float value => .number (.float value)
  | complex re im => .complex re im
  | bytes value => .bytes value
  | string text => .ofText text
  | timestamp instant => .ofText instant.text
  | list items => .list (treeItems items)
  | map entries => .map (treeEntries entries)

def treeItems : List Datum → List Tree
  | [] => []
  | item :: items => tree item :: treeItems items

def treeEntries : SortedEntries Datum → Entries Tree
  | ⟨names, ascending, fields⟩ => ⟨names, ascending.imp String.ne_of_lt, treeFields fields⟩

def treeFields {names : List String} : Fields Datum names → Fields Tree names
  | .nil => .nil
  | .cons name value rest => .cons name (tree value) (treeFields rest)

end

theorem treeItems_eq_map (items : List Datum) : treeItems items = items.map tree := by
  induction items with
  | nil => rfl
  | cons item items ih => rw [treeItems, ih, List.map_cons]

theorem treeFields_eq_map {names : List String} (fields : Fields Datum names) :
    treeFields fields = fields.map tree := by
  induction fields with
  | nil => rfl
  | cons name value rest ih => rw [treeFields, ih, Fields.map]

theorem tree_list (items : List Datum) : (list items).tree = .list (items.map tree) := by
  rw [tree, treeItems_eq_map]

theorem tree_map (entries : SortedEntries Datum) :
    (map entries).tree = .map (entries.toEntries.map tree) := by
  rw [tree, treeEntries, treeFields_eq_map]
  rfl

theorem setFree_ofText (text : String) : (Tree.ofText text).SetFree := by
  unfold Tree.ofText
  split <;> simp [Tree.SetFree, Tree.nodes, Tree.set?]

theorem setFree_tree (datum : Datum) : datum.tree.SetFree := by
  induction datum with
  | string | timestamp => exact setFree_ofText _
  | list items ih =>
    rw [tree_list, Tree.setFree_list]
    exact List.forall_mem_map.mpr ih
  | map entries ih =>
    rw [tree_map, Tree.setFree_map]
    exact (Entries.forall_mem_map (p := Tree.SetFree)).mpr ih
  | _ => simp [tree, Tree.SetFree, Tree.nodes, Tree.set?]

end AttributeCodec.Datum
