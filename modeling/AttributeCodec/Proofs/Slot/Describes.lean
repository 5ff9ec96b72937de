import AttributeCodec.Proofs.Slot.Run
import AttributeCodec.Proofs.Tree.Sorted

/-! The trees a script describes. The last notice says which, and each child is described by all that was told of it. -/

namespace AttributeCodec

namespace Notice

def leaf? : Notice → Option Tree
  | null => some .null
  | bool value => some (.bool value)
  | int value => some (.number (.int value))
  | uint value => some (.number (.uint value))
  | float value => some (.number (.float value))
  | bytes value => some (.bytes value)
  | string text => some (if text = "" then .null else .string text)
  | complex re im => some (.complex re im)
  | list .. | map .. => none

end Notice

namespace Script

inductive Describes : Script → Tree → Prop
  | leaf {script : Script} {notice : Notice} {tree : Tree} (last : script.getLast? = some notice)
      (leaf : notice.leaf? = some tree) : Describes script tree
  | list {script : Script} {length : Nat} {fills : List (Nat × Script)} {items : List Tree}
      (last : script.getLast? = some (.list length fills)) (full : items.length = length)
      (children : ∀ index item, items[index]? = some item → Describes (visitsTo index fills) item) :
      Describes script (.list items)
  | map {script : Script} {size : Nat} {fills : List (String × Script)} {entries : Entries Tree}
      (last : script.getLast? = some (.map size fills)) (full : size ≤ entries.size)
      (visited : ∀ name, name ∈ entries.names ↔ name ∈ fills.map Prod.fst)
      (children : ∀ entry ∈ entries.toList, Describes (visitsTo entry.1 fills) entry.2) :
      Describes script (.map entries)

/-- The scripts differ in superseded notices and in the order of visits to different children alone. -/
inductive Alike : Script → Script → Prop
  | same {script other : Script} (last : script.getLast? = other.getLast?) : Alike script other
  | list {script other : Script} {length : Nat} {fills others : List (Nat × Script)}
      (last : script.getLast? = some (.list length fills)) (last' : other.getLast? = some (.list length others))
      (children : ∀ index < length, Alike (visitsTo index fills) (visitsTo index others)) : Alike script other
  | map {script other : Script} {size : Nat} {fills others : List (String × Script)}
      (last : script.getLast? = some (.map size fills)) (last' : other.getLast? = some (.map size others))
      (visited : ∀ name, name ∈ fills.map Prod.fst ↔ name ∈ others.map Prod.fst)
      (children : ∀ name ∈ fills.map Prod.fst, Alike (visitsTo name fills) (visitsTo name others)) :
      Alike script other

section Describes

variable {script other : Script} {tree : Tree}

theorem Describes.eq_of_leaf {notice : Notice} {leaf : Tree} (h : script.Describes tree)
    (last : script.getLast? = some notice) (hleaf : notice.leaf? = some leaf) : tree = leaf := by
  cases h with
  | leaf found hfound =>
    rw [last] at found
    cases found
    exact Option.some.inj (hfound.symm.trans hleaf)
  | list found | map found =>
    rw [last] at found
    cases found
    cases hleaf

theorem Describes.exists_items {length : Nat} {fills : List (Nat × Script)} (h : script.Describes tree)
    (last : script.getLast? = some (.list length fills)) :
    ∃ items, tree = .list items ∧ items.length = length ∧
      ∀ index item, items[index]? = some item → (visitsTo index fills).Describes item := by
  cases h with
  | leaf found leaf =>
    rw [last] at found
    cases found
    cases leaf
  | list found full children =>
    rw [last] at found
    cases found
    exact ⟨_, rfl, full, children⟩
  | map found =>
    rw [last] at found
    cases found

theorem Describes.exists_entries {size : Nat} {fills : List (String × Script)} (h : script.Describes tree)
    (last : script.getLast? = some (.map size fills)) :
    ∃ entries, tree = .map entries ∧ size ≤ entries.size ∧
      (∀ name, name ∈ entries.names ↔ name ∈ fills.map Prod.fst) ∧
      ∀ entry ∈ entries.toList, (visitsTo entry.1 fills).Describes entry.2 := by
  cases h with
  | leaf found leaf =>
    rw [last] at found
    cases found
    cases leaf
  | list found =>
    rw [last] at found
    cases found
  | map found full visited children =>
    rw [last] at found
    cases found
    exact ⟨_, rfl, full, visited, children⟩

theorem Describes.sorted_eq {tree' : Tree} (h : script.Describes tree) (h' : script.Describes tree') :
    tree.sorted = tree'.sorted := by
  induction h generalizing tree' with
  | leaf last leaf => rw [h'.eq_of_leaf last leaf]
  | list last full _ ih =>
    obtain ⟨items, rfl, full', children⟩ := h'.exists_items last
    rw [Tree.sorted_list, Tree.sorted_list]
    refine congrArg Tree.list (List.ext_getElem (by simp [full, full']) fun index hindex hindex' => ?_)
    rw [List.getElem_map, List.getElem_map]
    exact ih index _ (List.getElem?_eq_getElem _) (children index _ (List.getElem?_eq_getElem _))
  | map last _ visited _ ih =>
    obtain ⟨entries, rfl, -, visited', children⟩ := h'.exists_entries last
    refine Tree.sorted_map_congr (fun name => (visited name).trans (visited' name).symm) ?_
    intro entry hentry other hother hname
    exact ih entry hentry (hname ▸ children other hother)

theorem Alike.of_superseded (earlier : Script) {notice : Notice} :
    (earlier ++ [notice]).Alike [notice] := by
  refine .same ?_
  rw [List.getLast?_concat, List.getLast?_singleton]

theorem Alike.of_swap_items {length : Nat} {before after : List (Nat × Script)} {first second : Nat × Script}
    (h : first.1 ≠ second.1) :
    Alike [.list length (before ++ first :: second :: after)] [.list length (before ++ second :: first :: after)] := by
  refine .list rfl rfl fun index _ => .same ?_
  rw [visitsTo_swap h]

theorem Alike.of_swap_fields {size : Nat} {before after : List (String × Script)} {first second : String × Script}
    (h : first.1 ≠ second.1) :
    Alike [.map size (before ++ first :: second :: after)] [.map size (before ++ second :: first :: after)] := by
  refine .map rfl rfl (fun name => ?_) fun name _ => .same ?_
  · simp only [List.map_append, List.map_cons, List.mem_append, List.mem_cons, or_left_comm]
  · rw [visitsTo_swap h]

theorem Alike.symm (h : script.Alike other) : other.Alike script := by
  induction h with
  | same last => exact .same last.symm
  | list last last' _ ih => exact .list last' last ih
  | map last last' visited _ ih =>
    refine .map last' last (fun name => (visited name).symm) fun name hname => ?_
    exact ih name ((visited name).mpr hname)

theorem Describes.of_alike (halike : script.Alike other) (h : script.Describes tree) :
    other.Describes tree := by
  induction halike generalizing tree with
  | same last =>
    cases h with
    | leaf last' leaf => exact .leaf (last ▸ last') leaf
    | list last' full children => exact .list (last ▸ last') full children
    | map last' full visited children => exact .map (last ▸ last') full visited children
  | list last last' _ ih =>
    obtain ⟨items, rfl, full, children⟩ := h.exists_items last
    refine .list last' full fun index item hitem => ih index ?_ (children index item hitem)
    exact full ▸ (List.getElem?_eq_some_iff.mp hitem).1
  | map last last' visited _ ih =>
    obtain ⟨entries, rfl, full, visited', children⟩ := h.exists_entries last
    refine .map last' full (fun name => (visited' name).trans (visited name)) fun entry hentry => ?_
    exact ih entry.1 ((visited' entry.1).mp (Entries.mem_names_of_mem hentry)) (children entry hentry)

end Describes

end Script

end AttributeCodec
