import AttributeCodec.Proofs.Entries
import AttributeCodec.Proofs.Tree.Parts

namespace AttributeCodec.Tree

mutual

def sorted : Tree → Tree
  | list items => list (sortedItems items)
  | map entries => map (sortedEntries entries)
  | tree => tree

def sortedItems : List Tree → List Tree
  | [] => []
  | item :: items => sorted item :: sortedItems items

def sortedEntries : Entries Tree → Entries Tree
  | ⟨_, _, fields⟩ => (SortedEntries.ofList (sortedFields fields).toList).toEntries

def sortedFields {names : List String} : Fields Tree names → Fields Tree names
  | .nil => .nil
  | .cons name value rest => .cons name (sorted value) (sortedFields rest)

end

theorem sortedItems_eq_map (items : List Tree) : sortedItems items = items.map sorted := by
  induction items with
  | nil => rfl
  | cons item items ih => rw [sortedItems, ih, List.map_cons]

theorem sortedFields_eq_map {names : List String} (fields : Fields Tree names) :
    sortedFields fields = fields.map sorted := by
  induction fields with
  | nil => rfl
  | cons name value rest ih => rw [sortedFields, ih, Fields.map]

theorem sorted_list (items : List Tree) : (list items).sorted = list (items.map sorted) := by
  rw [sorted, sortedItems_eq_map]

theorem sorted_map (entries : Entries Tree) :
    (map entries).sorted = map (SortedEntries.ofList (entries.map sorted).toList).toEntries := by
  rw [sorted, sortedEntries, sortedFields_eq_map]
  rfl

theorem sorted_map_congr {entries others : Entries Tree}
    (hnames : ∀ name, name ∈ entries.names ↔ name ∈ others.names)
    (h : ∀ entry ∈ entries.toList, ∀ other ∈ others.toList, entry.1 = other.1 → entry.2.sorted = other.2.sorted) :
    (map entries).sorted = (map others).sorted := by
  have hperm : (entries.map sorted).toList.Perm (others.map sorted).toList := by
    refine Entries.perm_of_names hnames ?_
    rw [Entries.toList_map, Entries.toList_map]
    simpa only [List.forall_mem_map] using h
  rw [sorted_map, sorted_map, SortedEntries.ofList_congr (entries.map sorted).nodup_map_fst_toList hperm]

end AttributeCodec.Tree
