import AttributeCodec.Proofs.Datum.Generic
import AttributeCodec.Proofs.Datum.Parts

/-! The data that an encoding comes to, in order. The first that does not pass its check decides. -/

namespace AttributeCodec

namespace Datum

def checkKind : Datum → Except Fault Unit
  | timestamp _ => throw (.noEncoding "timestamp")
  | _ => return ()

end Datum

namespace Hook

/-- How the encoding of a datum for a fresh slot fares at the datum itself, whatever is inside it. -/
def check (hook : Hook) (datum : Datum) : Except Fault Unit :=
  match hook.encode datum with
  | (_, .refuse fault) => throw fault
  | (script, .accept) => if script.isEmpty then throw (.hookSilent datum.typeName) else return ()
  | (_, .decline) => datum.checkKind

end Hook

namespace Datum

def reachedWith (hook : Hook) (datum : Datum) (inside : List Datum) : List Datum :=
  match (hook.encode datum).2 with
  | .decline => datum :: inside
  | _ => [datum]

mutual

/-- The data inside that the encoding comes to if nothing fails, each before those inside it. -/
def reachedInside (hook : Hook) : Datum → List Datum
  | list items => reachedItems hook items
  | map entries => reachedEntries hook entries
  | _ => []

def reachedItems (hook : Hook) : List Datum → List Datum
  | [] => []
  | item :: items => reachedWith hook item (reachedInside hook item) ++ reachedItems hook items

def reachedEntries (hook : Hook) : SortedEntries Datum → List Datum
  | ⟨_, _, fields⟩ => reachedFields hook fields

def reachedFields (hook : Hook) {names : List String} : Fields Datum names → List Datum
  | .nil => []
  | .cons _ value rest => reachedWith hook value (reachedInside hook value) ++ reachedFields hook rest

end

def reached (hook : Hook) (datum : Datum) : List Datum := reachedWith hook datum (reachedInside hook datum)

variable {hook : Hook} {datum : Datum}

theorem reachedItems_eq_flatMap (items : List Datum) : reachedItems hook items = items.flatMap (reached hook) := by
  induction items with
  | nil => rfl
  | cons item items ih => rw [reachedItems, ih, List.flatMap_cons, reached]

theorem reachedFields_eq_flatMap {names : List String} (fields : Fields Datum names) :
    reachedFields hook fields = (fields.toList.map Prod.snd).flatMap (reached hook) := by
  induction fields with
  | nil => rfl
  | cons name value rest ih => rw [reachedFields, ih, Fields.toList, List.map_cons, List.flatMap_cons, reached]

theorem reachedInside_list (items : List Datum) : reachedInside hook (list items) = items.flatMap (reached hook) := by
  rw [reachedInside, reachedItems_eq_flatMap]

theorem reachedInside_map (entries : SortedEntries Datum) :
    reachedInside hook (map entries) = (entries.toList.map Prod.snd).flatMap (reached hook) := by
  rw [reachedInside, reachedEntries, reachedFields_eq_flatMap]
  rfl

theorem reached_of_decline (h : (hook.encode datum).2 = .decline) :
    datum.reached hook = datum :: reachedInside hook datum := by
  rw [reached, reachedWith, h]

theorem eq_or_mem_of_mem_reached {node : Datum} (h : node ∈ datum.reached hook) :
    node = datum ∨ node ∈ reachedInside hook datum := by
  rw [reached, reachedWith] at h
  split at h
  · exact List.mem_cons.mp h
  · exact .inl (List.mem_singleton.mp h)

theorem mem_nodes_of_mem_reached {node : Datum} (h : node ∈ datum.reached hook) : node ∈ datum.nodes := by
  induction datum with
  | list items ih =>
    rcases eq_or_mem_of_mem_reached h with rfl | hinside
    · exact mem_nodes _
    · rw [reachedInside_list] at hinside
      obtain ⟨item, hitem, hnode⟩ := List.mem_flatMap.mp hinside
      exact List.mem_cons_of_mem _ (mem_nodesOfItems.mpr ⟨item, hitem, ih item hitem hnode⟩)
  | map entries ih =>
    rcases eq_or_mem_of_mem_reached h with rfl | hinside
    · exact mem_nodes _
    · rw [reachedInside_map, List.flatMap_map] at hinside
      obtain ⟨entry, hentry, hnode⟩ := List.mem_flatMap.mp hinside
      exact List.mem_cons_of_mem _ (mem_nodesOfEntries.mpr ⟨entry, hentry, ih entry hentry hnode⟩)
  | _ =>
    obtain rfl := (eq_or_mem_of_mem_reached h).resolve_right List.not_mem_nil
    exact mem_nodes _

def GenericChecks (hook : Hook) (datum : Datum) : Prop :=
  (generic hook datum).2 = do
    datum.checkKind
    forM (reachedInside hook datum) hook.check

theorem encode_result_of_generic (h : GenericChecks hook datum) :
    (encode hook false datum).2 = forM (datum.reached hook) hook.check := by
  rw [encode, consult, reached, reachedWith]
  rcases hverdict : hook.encode datum with ⟨script, fault | _ | _⟩
  · rw [List.forM_cons, Hook.check, hverdict]
    rfl
  · rw [List.forM_cons, Hook.check, hverdict]
    cases script <;> rfl
  · rw [List.forM_cons, Hook.check, hverdict]
    exact h

theorem visits_result_of_checks {κ : Type} {children : List (κ × Datum)}
    (h : ∀ datum ∈ children.map Prod.snd, (encode hook false datum).2 = forM (datum.reached hook) hook.check) :
    (visits hook children).2 = forM ((children.map Prod.snd).flatMap (reached hook)) hook.check := by
  rw [visits_result, forM_flatMap]
  exact forM_congr h

theorem encode_result (hook : Hook) (datum : Datum) :
    (encode hook false datum).2 = forM (datum.reached hook) hook.check := by
  induction datum with
  | list items ih =>
    refine encode_result_of_generic ?_
    rw [← map_snd_numbered items] at ih
    rw [GenericChecks, generic_list, visits_result_of_checks ih, map_snd_numbered, reachedInside_list]
    rfl
  | map entries ih =>
    refine encode_result_of_generic ?_
    rw [GenericChecks, generic_map, visits_result_of_checks (List.forall_mem_map.mpr ih), reachedInside_map]
    rfl
  | _ => exact encode_result_of_generic rfl

end Datum

end AttributeCodec
