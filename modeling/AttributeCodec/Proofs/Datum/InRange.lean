import AttributeCodec.Proofs.Datum.Generic
import AttributeCodec.Proofs.Datum.Parts

namespace AttributeCodec

namespace Notice

theorem allInRange_append (script others : Script) :
    allInRange (script ++ others) = (allInRange script && allInRange others) := by
  induction script with
  | nil => rw [List.nil_append, allInRange, Bool.true_and]
  | cons notice rest ih => rw [List.cons_append, allInRange, ih, allInRange, Bool.and_assoc]

theorem itemsInRange_iff {length : Nat} {fills : List (Nat × Script)} :
    itemsInRange length fills = true ↔ ∀ fill ∈ fills, fill.1 < length ∧ Script.InRange fill.2 := by
  induction fills with
  | nil => simp [itemsInRange]
  | cons fill fills ih =>
    rw [itemsInRange, Bool.and_eq_true, Bool.and_eq_true, decide_eq_true_iff, ih, List.forall_mem_cons]
    rfl

theorem fieldsInRange_iff {fills : List (String × Script)} :
    fieldsInRange fills = true ↔ ∀ fill ∈ fills, Script.InRange fill.2 := by
  induction fills with
  | nil => simp [fieldsInRange]
  | cons fill fills ih =>
    rw [fieldsInRange, Bool.and_eq_true, ih, List.forall_mem_cons]
    rfl

end Notice

namespace Script

theorem inRange_append {script others : Script} (h : script.InRange) (hothers : others.InRange) :
    InRange (script ++ others) := by
  rw [InRange, Notice.allInRange_append, Bool.and_eq_true]
  exact ⟨h, hothers⟩

theorem inRange_list_iff {length : Nat} {fills : List (Nat × Script)} :
    InRange [.list length fills] ↔ ∀ fill ∈ fills, fill.1 < length ∧ fill.2.InRange := by
  rw [InRange, Notice.allInRange, Notice.allInRange, Bool.and_true, Notice.inRange, Notice.itemsInRange_iff]

theorem inRange_map_iff {size : Nat} {fills : List (String × Script)} :
    InRange [.map size fills] ↔ ∀ fill ∈ fills, fill.2.InRange := by
  rw [InRange, Notice.allInRange, Notice.allInRange, Bool.and_true, Notice.inRange, Notice.fieldsInRange_iff]

end Script

namespace Datum

variable {hook : Hook}

theorem inRange_of_mem_visits {κ : Type} {children : List (κ × Datum)} {fill : κ × Script}
    (hchildren : ∀ datum ∈ children.map Prod.snd, (encode hook false datum).1.InRange)
    (hfill : fill ∈ (visits hook children).1) : fill.2.InRange := by
  obtain ⟨child, hchild, -, hscript⟩ := exists_child_of_mem_visits hfill
  rw [← hscript]
  exact hchildren child.2 (List.mem_map_of_mem hchild)

theorem inRange_encode_of_generic {notified : Bool} {datum : Datum} (h : (generic hook datum).1.InRange) :
    (encode hook notified datum).1.InRange := by
  have hscript := hook.encode_inRange datum
  rw [encode, consult]
  rcases hverdict : hook.encode datum with ⟨script, fault | _ | _⟩ <;> rw [hverdict] at hscript
  · exact hscript
  · exact hscript
  · exact Script.inRange_append hscript h

theorem inRange_generic_list {items : List Datum} (h : ∀ item ∈ items, (encode hook false item).1.InRange) :
    (generic hook (list items)).1.InRange := by
  rw [generic_list, Script.inRange_list_iff]
  refine fun fill hfill => ⟨?_, inRange_of_mem_visits ?_ hfill⟩
  · have hindex := map_fst_visits_prefix.subset (List.mem_map_of_mem hfill)
    rwa [map_fst_numbered, List.mem_range] at hindex
  · rwa [map_snd_numbered]

theorem inRange_generic_map {entries : SortedEntries Datum}
    (h : ∀ entry ∈ entries.toList, (encode hook false entry.2).1.InRange) :
    (generic hook (map entries)).1.InRange := by
  rw [generic_map, Script.inRange_map_iff]
  exact fun fill hfill => inRange_of_mem_visits (List.forall_mem_map.mpr h) hfill

theorem inRange_encode (hook : Hook) (notified : Bool) (datum : Datum) : (encode hook notified datum).1.InRange := by
  induction datum generalizing notified with
  | list items ih => exact inRange_encode_of_generic (inRange_generic_list fun item hitem => ih item hitem false)
  | map entries ih => exact inRange_encode_of_generic (inRange_generic_map fun entry hentry => ih entry hentry false)
  | _ => exact inRange_encode_of_generic rfl

end Datum

theorem Entity.inRange_encode (hook : Hook) (entity : Entity) : (Storable.encode hook entity).1.InRange := by
  rw [encode_eq_generic]
  exact Datum.inRange_generic_map fun entry _ => Datum.inRange_encode hook false entry.2

end AttributeCodec
