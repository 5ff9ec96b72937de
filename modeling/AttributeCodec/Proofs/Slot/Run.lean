import AttributeCodec.Proofs.Entries
import AttributeCodec.Slot

namespace AttributeCodec

/-- What a child is told in all, over the visits to it. -/
def visitsTo {κ : Type} [DecidableEq κ] (key : κ) (fills : List (κ × Script)) : Script :=
  (fills.filter fun fill => fill.1 = key).flatMap Prod.snd

section Visits

variable {κ : Type} [DecidableEq κ] {key : κ} {script : Script} {fills : List (κ × Script)}

theorem visitsTo_cons_self : visitsTo key ((key, script) :: fills) = script ++ visitsTo key fills := by
  simp [visitsTo]

theorem visitsTo_cons_of_ne {other : κ} (h : other ≠ key) :
    visitsTo key ((other, script) :: fills) = visitsTo key fills := by
  simp [visitsTo, h]

theorem visitsTo_of_not_mem (h : key ∉ fills.map Prod.fst) : visitsTo key fills = [] := by
  induction fills with
  | nil => rfl
  | cons fill fills ih =>
    rw [List.map_cons, List.mem_cons, not_or] at h
    exact (visitsTo_cons_of_ne (Ne.symm h.1)).trans (ih h.2)

theorem visitsTo_of_mem (hnodup : (fills.map Prod.fst).Nodup) (h : (key, script) ∈ fills) :
    visitsTo key fills = script := by
  induction fills with
  | nil => cases h
  | cons fill fills ih =>
    obtain ⟨hfill, hfills⟩ := List.nodup_cons.mp hnodup
    rcases List.mem_cons.mp h with rfl | h
    · rw [visitsTo_cons_self, visitsTo_of_not_mem hfill, List.append_nil]
    · have hne : fill.1 ≠ key := fun heq => hfill (heq ▸ List.mem_map_of_mem h)
      exact (visitsTo_cons_of_ne hne).trans (ih hfills h)

theorem visitsTo_append {others : List (κ × Script)} :
    visitsTo key (fills ++ others) = visitsTo key fills ++ visitsTo key others := by
  simp only [visitsTo, List.filter_append, List.flatMap_append]

theorem visitsTo_swap {first second : κ × Script} {others : List (κ × Script)} (h : first.1 ≠ second.1) :
    visitsTo key (fills ++ first :: second :: others) = visitsTo key (fills ++ second :: first :: others) := by
  rw [visitsTo_append, visitsTo_append]
  obtain ⟨name, script⟩ := first
  obtain ⟨name', script'⟩ := second
  congr 1
  by_cases hfirst : name = key
  · subst hfirst
    rw [visitsTo_cons_self, visitsTo_cons_of_ne (Ne.symm h), visitsTo_cons_of_ne (Ne.symm h), visitsTo_cons_self]
  · rw [visitsTo_cons_of_ne hfirst]
    by_cases hsecond : name' = key
    · subst hsecond
      rw [visitsTo_cons_self, visitsTo_cons_self, visitsTo_cons_of_ne hfirst]
    · rw [visitsTo_cons_of_ne hsecond, visitsTo_cons_of_ne hsecond, visitsTo_cons_of_ne hfirst]

end Visits

namespace Slot

theorem run_append (slot : Slot) (script others : Script) :
    slot.run (script ++ others) = (slot.run script).run others := by
  induction script generalizing slot with
  | nil => rfl
  | cons notice rest ih => exact ih (ofNotice notice)

theorem run_of_getLast? (slot : Slot) {script : Script} {notice : Notice} (h : script.getLast? = some notice) :
    slot.run script = ofNotice notice := by
  obtain ⟨earlier, rfl⟩ := List.getLast?_eq_some_iff.mp h
  rw [run_append]
  rfl

theorem fillItems_cons_congr (index : Nat) (script script' : Script)
    (hrun : ∀ slot : Slot, slot.run script = slot.run script') (fills others : List (Nat × Script))
    (hrest : ∀ slots, fillItems slots fills = fillItems slots others) (slots : List Slot) :
    fillItems slots ((index, script) :: fills) = fillItems slots ((index, script') :: others) := by
  rw [fillItems, fillItems, funext hrun, hrest]

theorem fillFields_cons_congr (name : String) (script script' : Script)
    (hrun : ∀ slot : Slot, slot.run script = slot.run script') (fills others : List (String × Script))
    (hrest : ∀ entries, fillFields entries fills = fillFields entries others) (entries : Entries Slot) :
    fillFields entries ((name, script) :: fills) = fillFields entries ((name, script') :: others) := by
  rw [fillFields, fillFields, funext fun slot? : Option Slot => hrun (slot?.getD .unset), hrest]

theorem getElem?_fillItems (slots : List Slot) (fills : List (Nat × Script)) (index : Nat) :
    (fillItems slots fills)[index]? = slots[index]?.map fun slot => slot.run (visitsTo index fills) := by
  induction fills generalizing slots with
  | nil => exact Option.map_id'.symm
  | cons fill fills ih =>
    obtain ⟨other, script⟩ := fill
    rw [fillItems, ih, List.getElem?_modify]
    by_cases h : other = index
    · subst h
      rw [visitsTo_cons_self]
      cases slots[other]? with
      | none => rfl
      | some slot => simp [run_append]
    · rw [visitsTo_cons_of_ne h]
      simp [h]

theorem get?_fillFields (entries : Entries Slot) (fills : List (String × Script)) (name : String) :
    (fillFields entries fills).get? name =
      if name ∈ fills.map Prod.fst then some (((entries.get? name).getD unset).run (visitsTo name fills))
      else entries.get? name := by
  induction fills generalizing entries with
  | nil => simp [fillFields]
  | cons fill fills ih =>
    obtain ⟨other, script⟩ := fill
    rw [fillFields, ih, Entries.get?_update, List.map_cons]
    by_cases h : other = name
    · subst h
      rw [if_pos rfl, if_pos List.mem_cons_self, visitsTo_cons_self, run_append]
      split
      · rfl
      · next hmem => rw [visitsTo_of_not_mem hmem, run]
    · have hmem : name ∈ other :: fills.map Prod.fst ↔ name ∈ fills.map Prod.fst := by
        rw [List.mem_cons, or_iff_right (Ne.symm h)]
      rw [if_neg h, visitsTo_cons_of_ne h]
      simp only [hmem]

theorem mem_names_fillFields {entries : Entries Slot} {fills : List (String × Script)} {name : String} :
    name ∈ (fillFields entries fills).names ↔ name ∈ entries.names ∨ name ∈ fills.map Prod.fst := by
  induction fills generalizing entries with
  | nil => simp [fillFields]
  | cons fill fills ih =>
    rw [fillFields, ih, Entries.mem_names_update, List.map_cons, List.mem_cons, or_assoc, or_left_comm]

theorem mem_names_fillFields_empty {fills : List (String × Script)} {name : String} :
    name ∈ (fillFields .empty fills).names ↔ name ∈ fills.map Prod.fst := by
  rw [mem_names_fillFields, or_iff_right (by exact List.not_mem_nil)]

end Slot

end AttributeCodec
