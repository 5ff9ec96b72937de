import AttributeCodec.Proofs.Datum.Generic
import AttributeCodec.Proofs.Datum.Parts

namespace AttributeCodec

def Encoding.Leaves (encoding : Encoding) (tree : Tree) : Prop :=
  ∃ script, encoding = (script, .ok ()) ∧ ∀ slot : Slot, (slot.run script).tree = .ok tree

theorem Encoding.Leaves.tree_eq {encoding : Encoding} {tree : Tree} (h : encoding.Leaves tree) :
    encoding.tree = .ok tree := by
  obtain ⟨script, rfl, hscript⟩ := h
  show (Slot.unset.run script).finish = _
  rw [Slot.finish, hscript]
  rfl

namespace Datum

theorem leaves_of_notice {notice : Notice} {tree : Tree} (h : (Slot.ofNotice notice).tree = .ok tree) :
    Encoding.Leaves ([notice], return ()) tree :=
  ⟨[notice], rfl, fun _ => h⟩

theorem encode_timestamp (notified : Bool) (instant : Instant) :
    encode .timestamps notified (timestamp instant) = ([.string instant.text], return ()) := by
  cases notified <;> rfl

def TimestampFree (datum : Datum) : Prop := ∀ instant, timestamp instant ∉ datum.nodes

end Datum

def Hook.Covers (hook : Hook) (datum : Datum) : Prop := hook = .timestamps ∨ hook = .none ∧ datum.TimestampFree

namespace Hook.Covers

variable {hook : Hook}

theorem standard {datum : Datum} (h : hook.Covers datum) : hook = .none ∨ hook = .timestamps :=
  h.symm.imp_left And.left

theorem item {items : List Datum} (h : hook.Covers (.list items)) : ∀ item ∈ items, hook.Covers item := by
  intro item hitem
  refine h.imp_right (And.imp_right fun hfree instant hmem => hfree instant ?_)
  exact List.mem_cons_of_mem _ (Datum.mem_nodesOfItems.mpr ⟨item, hitem, hmem⟩)

theorem entry {entries : SortedEntries Datum} (h : hook.Covers (.map entries)) :
    ∀ entry ∈ entries.toList, hook.Covers entry.2 := by
  intro entry hentry
  refine h.imp_right (And.imp_right fun hfree instant hmem => hfree instant ?_)
  exact List.mem_cons_of_mem _ (Datum.mem_nodesOfEntries.mpr ⟨entry, hentry, hmem⟩)

theorem eq_timestamps {instant : Instant} (h : hook.Covers (.timestamp instant)) : hook = .timestamps :=
  h.resolve_right fun ⟨_, hfree⟩ => hfree instant (Datum.mem_nodes _)

end Hook.Covers

namespace Datum

variable {hook : Hook}

section Fills

open Slot (unset fillItems fillFields run)

theorem modify_append_cons {α : Type} (f : α → α) (before after : List α) (x : α) :
    (before ++ x :: after).modify before.length f = before ++ f x :: after := by
  induction before with
  | nil => rfl
  | cons b before ih =>
    rw [List.cons_append, List.length_cons, List.modify_succ_cons, ih, List.cons_append]

theorem exists_genericItems {items : List Datum}
    (hall : ∀ item ∈ items, (encode hook false item).Leaves item.tree) (index : Nat) :
    ∃ fills slots, genericItems hook index items = (fills, .ok ()) ∧
      (∀ before : List Slot, before.length = index →
        fillItems (before ++ List.replicate items.length unset) fills = before ++ slots) ∧
      ∀ first, Slot.treeItems first slots = .ok (items.map tree) := by
  -- The slots before the index are filled and stay as they are, those from it on are unset.
  induction items generalizing index with
  | nil => exact ⟨[], [], rfl, fun before _ => rfl, fun _ => rfl⟩
  | cons item items ih =>
    obtain ⟨⟨script, hscript, htree⟩, hrest⟩ := List.forall_mem_cons.mp hall
    obtain ⟨fills, slots, hfills, hslots, htrees⟩ := ih hrest (index + 1)
    refine ⟨(index, script) :: fills, run unset script :: slots, ?_, ?_, ?_⟩
    · rw [genericItems_cons, hscript, hfills]
      rfl
    · rintro before rfl
      have hnext := hslots (before ++ [run unset script]) (by simp)
      rw [List.append_assoc, List.append_assoc] at hnext
      rw [List.length_cons, List.replicate_succ, fillItems, modify_append_cons]
      exact hnext
    · intro first
      rw [Slot.treeItems, htree, htrees]
      rfl

theorem exists_genericFields {names : List String} {fields : Fields Datum names} (hnodup : names.Nodup)
    (hall : ∀ entry ∈ fields.toList, (encode hook false entry.2).Leaves entry.2.tree) :
    ∃ fills, ∃ slots : Fields Slot names, genericFields hook fields = (fills, .ok ()) ∧
      (∀ before : Entries Slot, (∀ name ∈ names, name ∉ before.toList.map Prod.fst) →
        (fillFields before fills).toList = before.toList ++ slots.toList) ∧
      Slot.treeFields slots = .ok (fields.map tree) := by
  -- No name is there before its fill, so every update adds an entry at the end.
  induction fields with
  | nil => exact ⟨[], .nil, rfl, fun before _ => (List.append_nil _).symm, rfl⟩
  | cons name value rest ih =>
    obtain ⟨hname, hnames⟩ := List.nodup_cons.mp hnodup
    obtain ⟨⟨script, hscript, htree⟩, hrest⟩ := List.forall_mem_cons.mp hall
    obtain ⟨fills, slots, hfills, hslots, htrees⟩ := ih hnames hrest
    refine ⟨(name, script) :: fills, .cons name (run unset script) slots, ?_, ?_, ?_⟩
    · replace hscript : encode hook false value = (script, .ok ()) := hscript
      rw [genericFields_cons, hscript, hfills]
      rfl
    · intro before hbefore
      obtain ⟨hfresh, hothers⟩ := List.forall_mem_cons.mp hbefore
      rw [fillFields, hslots]
      · rw [Entries.toList_update, Entries.updated_of_not_mem _ hfresh, List.append_assoc]
        rfl
      · intro other hother hmem
        rw [Entries.toList_update, Entries.mem_map_fst_updated] at hmem
        rcases hmem with rfl | hmem
        · exact hname hother
        · exact hothers other hother hmem
    · rw [Slot.treeFields, htree, htrees]
      rfl

end Fills

theorem leaves_generic_list {items : List Datum}
    (hall : ∀ item ∈ items, (encode hook false item).Leaves item.tree) :
    (generic hook (list items)).Leaves (list items).tree := by
  obtain ⟨fills, slots, hfills, hslots, htrees⟩ := exists_genericItems hall 0
  have hfilled := hslots [] rfl
  rw [List.nil_append, List.nil_append] at hfilled
  rw [generic, hfills]
  refine leaves_of_notice ?_
  rw [Slot.ofNotice, hfilled, Slot.tree, htrees, tree_list]
  rfl

theorem leaves_generic_map {entries : SortedEntries Datum}
    (hall : ∀ entry ∈ entries.toList, (encode hook false entry.2).Leaves entry.2.tree) :
    (generic hook (map entries)).Leaves (map entries).tree := by
  obtain ⟨names, ascending, fields⟩ := entries
  have hnodup : names.Nodup := ascending.imp String.ne_of_lt
  obtain ⟨fills, slots, hfills, hslots, htrees⟩ := exists_genericFields hnodup hall
  have hfilled : Slot.fillFields .empty fills = ⟨names, hnodup, slots⟩ :=
    Entries.toList_injective (hslots .empty (by simp [Entries.empty, Entries.toList, Fields.toList]))
  have hsize : ¬names.length < names.length := Nat.lt_irrefl _
  rw [generic, genericEntries, hfills]
  refine leaves_of_notice ?_
  rw [Slot.ofNotice, hfilled, Slot.tree, SortedEntries.size, Entries.size, if_neg hsize, Slot.treeEntries,
    htrees, tree_map]
  rfl

theorem leaves_encode_of_covers (notified : Bool) {datum : Datum} (h : hook.Covers datum) :
    (encode hook notified datum).Leaves datum.tree := by
  induction datum generalizing notified with
  | timestamp instant =>
    rw [h.eq_timestamps, encode_timestamp]
    exact leaves_of_notice rfl
  | list items ih =>
    rw [encode_eq_generic h.standard notified (by simp)]
    exact leaves_generic_list fun item hitem => ih item hitem false (h.item item hitem)
  | map entries ih =>
    rw [encode_eq_generic h.standard notified (by simp)]
    exact leaves_generic_map fun entry hentry => ih entry hentry false (h.entry entry hentry)
  | _ =>
    rw [encode_eq_generic h.standard notified (by simp)]
    exact leaves_of_notice rfl

theorem leaves_encode (notified : Bool) (datum : Datum) : (encode .timestamps notified datum).Leaves datum.tree :=
  leaves_encode_of_covers notified (.inl rfl)

theorem toTree_timestamps (datum : Datum) : datum.toTree .timestamps = .ok datum.tree :=
  (leaves_encode false datum).tree_eq

end Datum

theorem Entity.leaves_encode {hook : Hook} {entity : Entity} (h : hook.Covers (.map entity.fields)) :
    (Storable.encode hook entity).Leaves (Datum.map entity.fields).tree := by
  rw [encode_eq_generic]
  exact Datum.leaves_generic_map fun entry hentry => Datum.leaves_encode_of_covers false (h.entry entry hentry)

theorem Entity.toTree_timestamps (entity : Entity) :
    Storable.toTree .timestamps entity = .ok (Datum.map entity.fields).tree :=
  (leaves_encode (.inl rfl)).tree_eq

end AttributeCodec
