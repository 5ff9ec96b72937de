import AttributeCodec.Proofs.Datum.Generic
import AttributeCodec.Proofs.Slot.Run

/-! What a slot held before is replaced, unless the hook accepts a datum in silence. -/

namespace AttributeCodec.Datum

variable {hook : Hook} {datum : Datum}

def ReplacesAll (hook : Hook) (datum : Datum) : Prop :=
  ∀ slot other : Slot, (datum.encodeInto hook slot).2 = (datum.encodeInto hook other).2 ∧
    ((datum.encodeInto hook slot).2 = .ok () → (datum.encodeInto hook slot).1 = (datum.encodeInto hook other).1)

theorem encode_notified (h : hook.encode datum ≠ ([], .accept)) (notified : Bool) :
    encode hook notified datum = encode hook false datum := by
  rw [encode, encode, consult, consult]
  rcases hverdict : hook.encode datum with ⟨script, fault | _ | _⟩
  · rfl
  · cases script with
    | nil => exact absurd hverdict h
    | cons notice rest => cases notified <;> rfl
  · rfl

theorem generic_script_ne_nil (h : (generic hook datum).2 = .ok ()) : (generic hook datum).1 ≠ [] := by
  cases datum with
  | timestamp => cases h
  | _ => exact List.cons_ne_nil _ _

theorem encode_script_ne_nil (h : (encode hook false datum).2 = .ok ()) : (encode hook false datum).1 ≠ [] := by
  rw [encode, consult] at h ⊢
  rcases hverdict : hook.encode datum with ⟨script, fault | _ | _⟩
  · rw [hverdict] at h
    cases h
  · rintro rfl
    rw [hverdict] at h
    cases h
  · rw [hverdict] at h
    exact List.append_ne_nil_of_right_ne_nil script (generic_script_ne_nil h)

theorem replacesAll_of_not_silent (h : hook.encode datum ≠ ([], .accept)) : ReplacesAll hook datum := by
  intro slot other
  rw [encodeInto, encodeInto, encode_notified h slot.isEncoded, encode_notified h other.isEncoded]
  refine ⟨rfl, fun hok => ?_⟩
  have hlast := List.getLast?_eq_some_getLast (encode_script_ne_nil hok)
  exact (slot.run_of_getLast? hlast).trans (other.run_of_getLast? hlast).symm

theorem encodeInto_of_silent (h : hook.encode datum = ([], .accept)) (slot : Slot) :
    datum.encodeInto hook slot = (slot, if slot.isEncoded then .ok () else .error (.hookSilent datum.typeName)) := by
  rw [encodeInto, encode, consult, h]
  cases slot <;> rfl

theorem not_replacesAll_of_silent (h : hook.encode datum = ([], .accept)) : ¬ReplacesAll hook datum := by
  intro hall
  have hresult := (hall .unset (.ready .null)).1
  rw [encodeInto_of_silent h, encodeInto_of_silent h] at hresult
  cases hresult

theorem replacesAll_iff_not_silent (hook : Hook) (datum : Datum) :
    (ReplacesAll hook datum ↔ hook.encode datum ≠ ([], .accept)) ∧
      (hook.encode datum = ([], .accept) → ∀ slot : Slot, datum.encodeInto hook slot =
        (slot, if slot.isEncoded then .ok () else .error (.hookSilent datum.typeName))) :=
  ⟨⟨fun hall hsilent => not_replacesAll_of_silent hsilent hall, replacesAll_of_not_silent⟩, encodeInto_of_silent⟩

def silentHook : Hook where
  encode _ := ([], .accept)
  encode_inRange _ := rfl
  decode _ _ := return none

theorem stale_with_silentHook :
    (int 2).encodeInto silentHook .unset = (.unset, .error (.hookSilent "int64")) ∧
      (int 2).encodeInto silentHook (Slot.unset.run [.int 1]) = (Slot.unset.run [.int 1], .ok ()) ∧
      (Slot.unset.run [.int 1]).finish = .ok (.number (.int 1)) ∧ ¬ReplacesAll silentHook (int 2) :=
  ⟨rfl, rfl, rfl, not_replacesAll_of_silent rfl⟩

theorem replacesAll_iff_not_silent_stale :
    ReplacesAll .timestamps (.list [.string "new"]) ∧
      (int 2).encodeInto silentHook (Slot.unset.run [.int 1]) = (Slot.unset.run [.int 1], .ok ()) :=
  ⟨(replacesAll_iff_not_silent .timestamps _).1.mpr (by simp [Hook.timestamps, Hook.encodeTimestamp]),
    (replacesAll_iff_not_silent silentHook (int 2)).2 rfl _⟩

end AttributeCodec.Datum
