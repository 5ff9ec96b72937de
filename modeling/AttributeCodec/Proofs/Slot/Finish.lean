import AttributeCodec.Proofs.Slot.Describes

namespace AttributeCodec

def Notice.Complete (finishes : Script → Prop) : Notice → Prop
  | list length fills => ∀ index < length, visitsTo index fills ≠ [] ∧ finishes (visitsTo index fills)
  | map size fills =>
    size ≤ (fills.map Prod.fst).dedup.length ∧
      ∀ name ∈ fills.map Prod.fst, visitsTo name fills ≠ [] ∧ finishes (visitsTo name fills)
  | _ => True

namespace Slot

theorem treeItems_eq_ok_iff {index : Nat} {slots : List Slot} {items : List Tree} :
    treeItems index slots = .ok items ↔ slots.mapM tree = .ok items := by
  induction slots generalizing index items with
  | nil => rfl
  | cons slot slots ih => simp only [treeItems, List.mapM_cons, bind_eq_ok, pure_eq_ok, mapError_eq_ok, ih]

theorem treeFields_eq_ok_iff {names : List String} {fields : Fields Slot names} {trees : Fields Tree names} :
    treeFields fields = .ok trees ↔ fields.traverse (fun _ => tree) = .ok trees := by
  induction fields with
  | nil => rfl
  | cons name slot rest ih => simp only [treeFields, Fields.traverse, bind_eq_ok, pure_eq_ok, mapError_eq_ok, ih]

theorem treeEntries_eq_ok_iff {entries : Entries Slot} {trees : Entries Tree} :
    treeEntries entries = .ok trees ↔ entries.traverse (fun _ => tree) = .ok trees := by
  rw [treeEntries, Entries.traverse, bind_eq_ok, bind_eq_ok]
  simp only [treeFields_eq_ok_iff]

theorem tree_list_eq_ok_iff {slots : List Slot} {finished : Tree} :
    (list slots).tree = .ok finished ↔ ∃ items, slots.mapM tree = .ok items ∧ .list items = finished := by
  rw [tree, bind_eq_ok]
  simp only [treeItems_eq_ok_iff, pure_eq_ok]

theorem tree_map_eq_ok_iff {size : Nat} {entries : Entries Slot} {finished : Tree} :
    (map size entries).tree = .ok finished ↔
      size ≤ entries.size ∧ ∃ trees, entries.traverse (fun _ => tree) = .ok trees ∧ .map trees = finished := by
  rw [tree]
  split
  · next hfew => exact iff_of_false throw_ne_ok fun h => absurd h.1 (Nat.not_le.mpr hfew)
  · next hmany =>
    rw [bind_eq_ok, and_iff_right (Nat.not_lt.mp hmany)]
    simp only [treeEntries_eq_ok_iff, pure_eq_ok]

theorem fillItems_unset (length : Nat) (fills : List (Nat × Script)) :
    fillItems (List.replicate length unset) fills =
      (List.range length).map fun index => unset.run (visitsTo index fills) := by
  refine List.ext_getElem? fun index => ?_
  rw [getElem?_fillItems, List.getElem?_replicate, List.getElem?_map]
  split
  · next h => rw [List.getElem?_range h]; rfl
  · next h => rw [List.getElem?_eq_none (by simpa using h)]; rfl

theorem toList_fillFields_empty (fills : List (String × Script)) :
    (fillFields .empty fills).toList =
      (fillFields .empty fills).names.map fun name => (name, unset.run (visitsTo name fills)) := by
  rw [← Entries.map_fst_toList, List.map_map]
  symm
  refine map_eq_self fun entry hentry => Prod.ext rfl ?_
  have hget := Entries.get?_eq_some_iff.mpr hentry
  rw [get?_fillFields] at hget
  split at hget
  · exact Option.some.inj hget
  · cases hget

theorem size_fillFields_empty (fills : List (String × Script)) :
    (fillFields .empty fills).size = (fills.map Prod.fst).dedup.length :=
  Entries.size_eq_dedup fun _ => mem_names_fillFields_empty

section Notices

variable {length size : Nat} {finished : Tree}

theorem exists_items_of_tree {fills : List (Nat × Script)}
    (h : (ofNotice (.list length fills)).tree = .ok finished) :
    ∃ items, .list items = finished ∧ items.length = length ∧
      ∀ index item, items[index]? = some item → (unset.run (visitsTo index fills)).tree = .ok item := by
  rw [ofNotice, fillItems_unset, tree_list_eq_ok_iff] at h
  obtain ⟨items, hitems, hfinished⟩ := h
  rw [mapM_eq_ok_iff, List.forall₂_map_left_iff, forall₂_range_iff] at hitems
  exact ⟨items, hfinished, hitems⟩

theorem exists_tree_listNotice_iff {fills : List (Nat × Script)} :
    (∃ finished, (ofNotice (.list length fills)).tree = .ok finished) ↔
      ∀ index < length, ∃ item, (unset.run (visitsTo index fills)).tree = .ok item := by
  have hmapM : (∃ finished, (ofNotice (.list length fills)).tree = .ok finished) ↔
      ∃ items, ((List.range length).map fun index => unset.run (visitsTo index fills)).mapM tree = .ok items := by
    rw [ofNotice, fillItems_unset]
    simp only [tree_list_eq_ok_iff]
    constructor
    · rintro ⟨_, items, hitems, -⟩
      exact ⟨items, hitems⟩
    · rintro ⟨items, hitems⟩
      exact ⟨_, items, hitems, rfl⟩
  rw [hmapM, exists_mapM_iff, List.forall_mem_map]
  simp only [List.mem_range]

theorem exists_entries_of_tree {fills : List (String × Script)}
    (h : (ofNotice (.map size fills)).tree = .ok finished) :
    ∃ entries, .map entries = finished ∧ size ≤ entries.size ∧
      (∀ name, name ∈ entries.names ↔ name ∈ fills.map Prod.fst) ∧
      ∀ entry ∈ entries.toList, (unset.run (visitsTo entry.1 fills)).tree = .ok entry.2 := by
  rw [ofNotice, tree_map_eq_ok_iff] at h
  obtain ⟨hsize, entries, hentries, hfinished⟩ := h
  rw [Entries.traverse_eq_ok_iff, toList_fillFields_empty, List.forall₂_map_left_iff] at hentries
  obtain ⟨hnames, hchildren⟩ :=
    (forall₂_fst_iff (R := fun name tree => (unset.run (visitsTo name fills)).tree = .ok tree)).mp hentries
  rw [entries.map_fst_toList] at hnames
  refine ⟨entries, hfinished, ?_, fun name => ?_, hchildren⟩
  · rwa [Entries.size, ← hnames]
  · rw [← hnames, mem_names_fillFields_empty]

theorem exists_tree_mapNotice_iff {fills : List (String × Script)} :
    (∃ finished, (ofNotice (.map size fills)).tree = .ok finished) ↔
      size ≤ (fills.map Prod.fst).dedup.length ∧
        ∀ name ∈ fills.map Prod.fst, ∃ item, (unset.run (visitsTo name fills)).tree = .ok item := by
  have htraverse : (∃ finished, (ofNotice (.map size fills)).tree = .ok finished) ↔
      size ≤ (fillFields .empty fills).size ∧
        ∃ trees, (fillFields .empty fills).traverse (fun _ => tree) = .ok trees := by
    rw [ofNotice]
    simp only [tree_map_eq_ok_iff, exists_and_left]
    refine and_congr_right fun _ => ?_
    constructor
    · rintro ⟨_, trees, htrees, -⟩
      exact ⟨trees, htrees⟩
    · rintro ⟨trees, htrees⟩
      exact ⟨_, trees, htrees, rfl⟩
  rw [htraverse, size_fillFields_empty, Entries.exists_traverse_iff, toList_fillFields_empty, List.forall_mem_map]
  simp only [mem_names_fillFields_empty]

end Notices

theorem exists_getLast?_of_tree {script : Script} {tree : Tree} (h : (unset.run script).tree = .ok tree) :
    ∃ notice, script.getLast? = some notice ∧ (ofNotice notice).tree = .ok tree := by
  cases hlast : script.getLast? with
  | none =>
    rw [List.getLast?_eq_none_iff.mp hlast] at h
    cases h
  | some notice => exact ⟨notice, rfl, run_of_getLast? unset hlast ▸ h⟩

theorem tree_ofNotice_of_leaf? {notice : Notice} {tree : Tree} (h : notice.leaf? = some tree) :
    (ofNotice notice).tree = .ok tree := by
  cases notice with
  | list | map => cases h
  | string text =>
    cases h
    rw [ofNotice, Slot.tree, Tree.ofText]
    simp only [String.isEmpty_iff]
    rfl
  | _ =>
    cases h
    rfl

theorem leaf?_of_tree_ofNotice {notice : Notice} {tree leaf : Tree} (hleaf : notice.leaf? = some leaf)
    (h : (ofNotice notice).tree = .ok tree) : notice.leaf? = some tree := by
  rw [tree_ofNotice_of_leaf? hleaf] at h
  cases h
  exact hleaf

theorem describes_of_children {script : Script} {tree : Tree} (h : (unset.run script).tree = .ok tree)
    (items : ∀ items, tree = .list items → ∀ item ∈ items, ∀ script : Script,
      (unset.run script).tree = .ok item → script.Describes item)
    (entries : ∀ entries, tree = .map entries → ∀ entry ∈ entries.toList, ∀ script : Script,
      (unset.run script).tree = .ok entry.2 → script.Describes entry.2) : script.Describes tree := by
  obtain ⟨notice, hlast, htree⟩ := exists_getLast?_of_tree h
  cases notice with
  | list length fills =>
    obtain ⟨trees, rfl, hfull, hchildren⟩ := exists_items_of_tree htree
    refine .list hlast hfull fun index item hitem => ?_
    exact items trees rfl item (List.mem_of_getElem? hitem) _ (hchildren index item hitem)
  | map size fills =>
    obtain ⟨trees, rfl, hfull, hvisited, hchildren⟩ := exists_entries_of_tree htree
    refine .map hlast hfull hvisited fun entry hentry => ?_
    exact entries trees rfl entry hentry _ (hchildren entry hentry)
  | _ => exact .leaf hlast (leaf?_of_tree_ofNotice rfl htree)

theorem describes_of_tree {script : Script} {tree : Tree} (h : (unset.run script).tree = .ok tree) :
    script.Describes tree := by
  induction tree generalizing script with
  | list items ih =>
    refine describes_of_children h ?_ fun _ heq => nomatch heq
    rintro _ ⟨⟩ item hitem script hscript
    exact ih item hitem hscript
  | map entries ih =>
    refine describes_of_children h (fun _ heq => nomatch heq) ?_
    rintro _ ⟨⟩ entry hentry script hscript
    exact ih entry hentry hscript
  | _ => exact describes_of_children h (fun _ heq => nomatch heq) fun _ heq => nomatch heq

theorem exists_tree_of_describes {script : Script} {tree : Tree} (h : script.Describes tree) :
    ∃ finished, (unset.run script).tree = .ok finished := by
  induction h with
  | leaf last leaf =>
    rw [run_of_getLast? unset last]
    exact ⟨_, tree_ofNotice_of_leaf? leaf⟩
  | list last full _ ih =>
    rw [run_of_getLast? unset last, exists_tree_listNotice_iff]
    exact fun index hindex => ih index _ (List.getElem?_eq_getElem (full ▸ hindex))
  | map last full visited _ ih =>
    rw [run_of_getLast? unset last, exists_tree_mapNotice_iff]
    refine ⟨?_, fun name hname => ?_⟩
    · rwa [← Entries.size_eq_dedup visited]
    · obtain ⟨entry, hentry, rfl⟩ := Entries.mem_names_iff.mp ((visited name).mpr hname)
      exact ih entry hentry

theorem finish_eq_ok_iff {slot : Slot} {tree : Tree} : slot.finish = .ok tree ↔ slot.tree = .ok tree :=
  mapError_eq_ok

theorem describes_of_finish {script : Script} {tree : Tree} (h : (unset.run script).finish = .ok tree) :
    script.Describes tree :=
  describes_of_tree (finish_eq_ok_iff.mp h)

end Slot

namespace Script

def Finishes (script : Script) : Prop := ∃ tree, (Slot.unset.run script).finish = .ok tree

theorem finishes_iff {script : Script} : script.Finishes ↔ ∃ tree, (Slot.unset.run script).tree = .ok tree := by
  simp only [Finishes, Slot.finish_eq_ok_iff]

theorem not_finishes_nil : ¬Finishes [] := by
  rintro ⟨tree, htree⟩
  cases htree

theorem complete_iff {notice : Notice} :
    notice.Complete Finishes ↔ ∃ tree, (Slot.ofNotice notice).tree = .ok tree := by
  have hchild : ∀ child : Script, child ≠ [] ∧ child.Finishes ↔ ∃ tree, (Slot.unset.run child).tree = .ok tree := by
    intro child
    rw [← finishes_iff, and_iff_right_iff_imp]
    rintro hfinishes rfl
    exact not_finishes_nil hfinishes
  cases notice with
  | list length fills => simp only [Notice.Complete, hchild, Slot.exists_tree_listNotice_iff]
  | map size fills => simp only [Notice.Complete, hchild, Slot.exists_tree_mapNotice_iff]
  | _ => exact iff_of_true trivial ⟨_, Slot.tree_ofNotice_of_leaf? rfl⟩

theorem finishes_iff_complete {script : Script} :
    script.Finishes ↔ ∃ notice, script.getLast? = some notice ∧ notice.Complete Finishes := by
  simp only [complete_iff, finishes_iff]
  constructor
  · rintro ⟨tree, htree⟩
    obtain ⟨notice, hlast, hnotice⟩ := Slot.exists_getLast?_of_tree htree
    exact ⟨notice, hlast, tree, hnotice⟩
  · rintro ⟨notice, hlast, hnotice⟩
    rwa [Slot.run_of_getLast? .unset hlast]

theorem exists_finish_of_describes {script : Script} {tree : Tree} (h : script.Describes tree) :
    ∃ finished, (Slot.unset.run script).finish = .ok finished ∧ finished.sorted = tree.sorted := by
  obtain ⟨finished, hfinished⟩ := Slot.exists_tree_of_describes h
  exact ⟨finished, Slot.finish_eq_ok_iff.mpr hfinished, (Slot.describes_of_tree hfinished).sorted_eq h⟩

theorem sorted_finish_eq_some_iff {script : Script} {sorted : Tree} :
    (Slot.unset.run script).finish.toOption.map Tree.sorted = some sorted ↔
      ∃ tree, script.Describes tree ∧ tree.sorted = sorted := by
  constructor
  · intro h
    obtain ⟨tree, htree, hsorted⟩ := Option.map_eq_some_iff.mp h
    cases hfinish : (Slot.unset.run script).finish with
    | error fault =>
      rw [hfinish] at htree
      cases htree
    | ok finished =>
      rw [hfinish] at htree
      cases htree
      exact ⟨tree, Slot.describes_of_finish hfinish, hsorted⟩
  · rintro ⟨tree, hdescribes, rfl⟩
    obtain ⟨finished, hfinished, hsorted⟩ := exists_finish_of_describes hdescribes
    rw [hfinished]
    exact congrArg some hsorted

theorem sorted_finish_eq_of_alike {script other : Script} (h : script.Alike other) :
    (Slot.unset.run script).finish.toOption.map Tree.sorted =
      (Slot.unset.run other).finish.toOption.map Tree.sorted := by
  refine Option.ext fun sorted => ?_
  rw [sorted_finish_eq_some_iff, sorted_finish_eq_some_iff]
  exact exists_congr fun tree => and_congr_left' ⟨.of_alike h, .of_alike h.symm⟩

theorem finishes_as_described (script : Script) :
    (script.Finishes ↔ ∃ notice, script.getLast? = some notice ∧ notice.Complete Finishes) ∧
      (∀ tree, (Slot.unset.run script).finish = .ok tree → script.Describes tree) ∧
      (∀ tree, script.Describes tree →
        ∃ finished, (Slot.unset.run script).finish = .ok finished ∧ finished.sorted = tree.sorted) ∧
      ∀ other : Script, script.Alike other →
        (Slot.unset.run script).finish.toOption.map Tree.sorted =
          (Slot.unset.run other).finish.toOption.map Tree.sorted :=
  ⟨finishes_iff_complete, fun _ hfinish => Slot.describes_of_finish hfinish,
    fun _ hdescribes => exists_finish_of_describes hdescribes, fun _ halike => sorted_finish_eq_of_alike halike⟩

def redrafted : Script :=
  [.string "draft",
    .map 1 [("tags", [.list 2 [(1, [.null])]]), ("note", [.int 4]),
      ("tags", [.list 2 [(1, [.null]), (0, [.bool true])]]), ("note", [.string ""])]]

def straightforward : Script :=
  [.map 1 [("note", [.string ""]), ("tags", [.list 2 [(0, [.bool true]), (1, [.null])]])]]

theorem redrafted_alike_straightforward : redrafted.Alike straightforward := by
  refine .map rfl rfl (by simp; tauto) fun name hname => ?_
  obtain rfl | rfl : name = "tags" ∨ name = "note" := by simpa [or_comm, or_left_comm] using hname
  · refine .list rfl rfl fun index hindex => ?_
    obtain rfl | rfl : index = 0 ∨ index = 1 := by omega
    · exact .same rfl
    · exact .same rfl
  · exact .same rfl

theorem finishes_as_described_redrafted :
    redrafted.Finishes ∧
      redrafted.Describes
        (.map (.ofList [("tags", .list [.bool true, .null]), ("note", .null)] (by decide))) ∧
      (Slot.unset.run redrafted).finish.toOption.map Tree.sorted =
        (Slot.unset.run straightforward).finish.toOption.map Tree.sorted ∧
      ¬Finishes [.list 2 [(1, [.null])]] := by
  obtain ⟨-, hdescribes, -, halike⟩ := finishes_as_described redrafted
  obtain ⟨hcomplete, -⟩ := finishes_as_described [.list 2 [(1, [.null])]]
  refine ⟨⟨_, rfl⟩, hdescribes _ rfl, halike _ redrafted_alike_straightforward, fun hfinishes => ?_⟩
  obtain ⟨_, ⟨⟩, hitems⟩ := hcomplete.mp hfinishes
  exact (hitems 0 (by decide)).1 rfl

end Script

end AttributeCodec
