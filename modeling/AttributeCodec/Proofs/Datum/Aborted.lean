import AttributeCodec.Proofs.Datum.Generic
import AttributeCodec.Proofs.Datum.Parts
import AttributeCodec.Proofs.Slot.Finish

/-! What a failed encoding leaves of a fresh slot does not finish: on each level of the way to the failure a child
is begun and not complete. -/

namespace AttributeCodec

namespace Hook

def Reticent (hook : Hook) : Prop := ∀ datum, (hook.encode datum).2 ≠ .accept → (hook.encode datum).1 = []

theorem reticent_none : none.Reticent := fun _ _ => rfl

theorem reticent_timestamps : timestamps.Reticent := by
  intro datum hverdict
  cases datum with
  | timestamp => exact absurd rfl hverdict
  | _ => rfl

end Hook

namespace Datum

variable {hook : Hook} {datum : Datum}

def LeftUnfinished (hook : Hook) (datum : Datum) : Prop :=
  ∀ fault, (encode hook false datum).2 = .error fault → ¬(encode hook false datum).1.Finishes

theorem exists_unfinished_visit {κ : Type} [DecidableEq κ] {children : List (κ × Datum)} {fault : Fault}
    (hdistinct : (children.map Prod.fst).Nodup) (hchildren : ∀ child ∈ children, LeftUnfinished hook child.2)
    (h : (visits hook children).2 = .error fault) :
    ∃ key ∈ (visits hook children).1.map Prod.fst, key ∈ children.map Prod.fst ∧
      ¬Script.Finishes (visitsTo key (visits hook children).1) := by
  obtain ⟨child, hchild, script, hvisit, hfault⟩ := exists_visit_of_error h
  have hnodup : ((visits hook children).1.map Prod.fst).Nodup := hdistinct.sublist map_fst_visits_prefix.sublist
  have hunfinished := hchildren child hchild fault (by rw [hfault])
  rw [hfault] at hunfinished
  refine ⟨child.1, List.mem_map_of_mem hvisit, List.mem_map_of_mem hchild, ?_⟩
  rwa [visitsTo_of_mem hnodup hvisit]

theorem not_finishes_singleton {notice : Notice} (h : ¬notice.Complete Script.Finishes) :
    ¬Script.Finishes [notice] := by
  intro hfinishes
  obtain ⟨_, ⟨⟩, hcomplete⟩ := Script.finishes_iff_complete.mp hfinishes
  exact h hcomplete

theorem leftUnfinished_of_generic (h : hook.Reticent)
    (hgeneric : ∀ fault, (generic hook datum).2 = .error fault → ¬(generic hook datum).1.Finishes) :
    LeftUnfinished hook datum := by
  intro fault hfault
  have hreticent := h datum
  rw [encode, consult] at hfault ⊢
  generalize hook.encode datum = answer at hreticent hfault ⊢
  rcases answer with ⟨script, other | _ | _⟩
  · obtain rfl : script = [] := hreticent (by simp)
    exact Script.not_finishes_nil
  · cases script with
    | nil => exact Script.not_finishes_nil
    | cons notice rest => cases hfault
  · obtain rfl : script = [] := hreticent (by simp)
    exact hgeneric fault hfault

theorem leftUnfinished_of_reticent (h : hook.Reticent) (datum : Datum) : LeftUnfinished hook datum := by
  induction datum with
  | timestamp instant => exact leftUnfinished_of_generic h fun _ _ => Script.not_finishes_nil
  | list items ih =>
    refine leftUnfinished_of_generic h fun fault hfault => ?_
    rw [← map_snd_numbered items] at ih
    rw [generic_list] at hfault ⊢
    have hdistinct : ((numbered items).map Prod.fst).Nodup := map_fst_numbered items ▸ List.nodup_range
    obtain ⟨index, -, hindex, hunfinished⟩ := exists_unfinished_visit hdistinct (List.forall_mem_map.mp ih) hfault
    rw [map_fst_numbered, List.mem_range] at hindex
    exact not_finishes_singleton fun hcomplete => hunfinished (hcomplete index hindex).2
  | map entries ih =>
    refine leftUnfinished_of_generic h fun fault hfault => ?_
    rw [generic_map] at hfault ⊢
    have hdistinct : (entries.toList.map Prod.fst).Nodup := entries.toEntries.nodup_map_fst_toList
    -- The names may all have been visited, and then it is the last of them that is not complete.
    obtain ⟨name, hname, -, hunfinished⟩ := exists_unfinished_visit hdistinct ih hfault
    exact not_finishes_singleton fun hcomplete => hunfinished (hcomplete.2 name hname).2
  | _ => exact leftUnfinished_of_generic h fun _ hfault => nomatch hfault

theorem finish_incomplete {script : Script} (h : ¬script.Finishes) :
    ∃ detail, (Slot.unset.run script).finish = .error (.incomplete detail) := by
  cases htree : (Slot.unset.run script).tree with
  | ok tree => exact absurd (Script.finishes_iff.mpr ⟨tree, htree⟩) h
  | error gap => exact ⟨gap.detail, by rw [Slot.finish, htree]; rfl⟩

theorem finish_incomplete_of_error :
    Hook.none.Reticent ∧ Hook.timestamps.Reticent ∧
      ∀ hook : Hook, hook.Reticent → ∀ (datum : Datum) (fault : Fault),
        (datum.encodeInto hook .unset).2 = .error fault →
          ∃ detail, (datum.encodeInto hook .unset).1.finish = .error (.incomplete detail) :=
  ⟨Hook.reticent_none, Hook.reticent_timestamps, fun _ hreticent datum fault hfault =>
    finish_incomplete (leftUnfinished_of_reticent hreticent datum fault hfault)⟩

def numericHook : Hook where
  encode
    | .bool _ => ([], .refuse (.noEncoding "bool"))
    | _ => ([], .decline)
  encode_inRange datum := by cases datum <;> rfl
  decode _ _ := return none

theorem reticent_numericHook : numericHook.Reticent := by
  intro datum _
  cases datum <;> rfl

def lateFlag : Datum := .map (.ofList [("first", .int 1), ("last", .list [.null, .bool true])])

theorem finish_incomplete_of_error_lateFlag :
    (lateFlag.encodeInto numericHook .unset).2 = .error (.noEncoding "bool") ∧
      ∃ detail, (lateFlag.encodeInto numericHook .unset).1.finish = .error (.incomplete detail) := by
  have hresult : (lateFlag.encodeInto numericHook .unset).2 = .error (.noEncoding "bool") := rfl
  exact ⟨hresult, finish_incomplete_of_error.2.2 numericHook reticent_numericHook lateFlag _ hresult⟩

end Datum

end AttributeCodec
