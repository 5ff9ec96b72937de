import AttributeCodec.Entity
import AttributeCodec.Proofs.Checks

namespace AttributeCodec

structure Encoding.Indistinct (encoding other : Encoding) : Prop where
  result : encoding.2 = other.2
  run : ∀ slot : Slot, slot.run encoding.1 = slot.run other.1

namespace Datum

def visitThen {κ : Type} (key : κ) (encoding : Encoding) (rest : List (κ × Script) × Except Fault Unit) :
    List (κ × Script) × Except Fault Unit :=
  match encoding with
  | (script, .error fault) => ([(key, script)], .error fault)
  | (script, .ok ()) => ((key, script) :: rest.1, rest.2)

structure SameFills {κ σ : Type} (fill : σ → List (κ × Script) → σ)
    (visits others : List (κ × Script) × Except Fault Unit) : Prop where
  result : visits.2 = others.2
  fill : ∀ slots, fill slots visits.1 = fill slots others.1

theorem sameFills_visitThen {κ σ : Type} {fill : σ → List (κ × Script) → σ} {encoding encoding' : Encoding}
    {visits others : List (κ × Script) × Except Fault Unit} {key : κ}
    (hfill : ∀ script script' : Script, (∀ slot : Slot, slot.run script = slot.run script') →
      ∀ fills others, (∀ slots, fill slots fills = fill slots others) →
        ∀ slots, fill slots ((key, script) :: fills) = fill slots ((key, script') :: others))
    (h : encoding.Indistinct encoding') (hrest : encoding.2 = .ok () → SameFills fill visits others) :
    SameFills fill (visitThen key encoding visits) (visitThen key encoding' others) := by
  obtain ⟨script, result⟩ := encoding
  obtain ⟨script', result'⟩ := encoding'
  obtain ⟨hresult, hrun⟩ := h
  obtain rfl : result = result' := hresult
  -- A visit that fails is the last, whatever the rest would have been.
  cases result with
  | error fault => exact ⟨rfl, hfill script script' hrun [] [] fun _ => rfl⟩
  | ok =>
    obtain ⟨hresult, hothers⟩ := hrest rfl
    exact ⟨hresult, hfill script script' hrun _ _ hothers⟩

variable {hook : Hook}

theorem genericItems_cons (hook : Hook) (index : Nat) (item : Datum) (items : List Datum) :
    genericItems hook index (item :: items) =
      visitThen index (encode hook false item) (genericItems hook (index + 1) items) := by
  rw [genericItems, ← encode]
  obtain ⟨script, result⟩ := encode hook false item
  cases result <;> rfl

theorem genericFields_cons (hook : Hook) (name : String) (value : Datum) {names : List String}
    (rest : Fields Datum names) :
    genericFields hook (.cons name value rest) =
      visitThen name (encode hook false value) (genericFields hook rest) := by
  rw [genericFields, ← encode]
  obtain ⟨script, result⟩ := encode hook false value
  cases result <;> rfl

theorem encode_eq_generic (hhook : hook = .none ∨ hook = .timestamps) (notified : Bool) {datum : Datum}
    (h : ∀ instant, datum ≠ timestamp instant) : encode hook notified datum = generic hook datum := by
  rcases hhook with rfl | rfl
  · rfl
  · cases datum with
    | timestamp instant => exact absurd rfl (h instant)
    | _ => rfl

section Visits

variable {κ : Type} {children : List (κ × Datum)}

def visits {κ : Type} (hook : Hook) : List (κ × Datum) → List (κ × Script) × Except Fault Unit
  | [] => ([], .ok ())
  | (key, datum) :: rest => visitThen key (encode hook false datum) (visits hook rest)

theorem visits_result :
    (visits hook children).2 = forM (children.map Prod.snd) fun datum => (encode hook false datum).2 := by
  induction children with
  | nil => rfl
  | cons child rest ih =>
    rw [visits, List.map_cons, List.forM_cons, ← ih]
    rcases encode hook false child.2 with ⟨script, fault | ⟨⟨⟩⟩⟩ <;> rfl

theorem forall₂_visits {fills : List (κ × Script)} (h : visits hook children = (fills, .ok ())) :
    List.Forall₂ (fun child fill => child.1 = fill.1 ∧ encode hook false child.2 = (fill.2, .ok ()))
      children fills := by
  induction children generalizing fills with
  | nil =>
    cases h
    exact .nil
  | cons child rest ih =>
    rw [visits] at h
    rcases hchild : encode hook false child.2 with ⟨script, fault | ⟨⟨⟩⟩⟩
    · rw [hchild] at h
      cases h
    · rcases hrest : visits hook rest with ⟨others, result⟩
      rw [hchild, hrest] at h
      cases h
      exact .cons ⟨rfl, hchild⟩ (ih hrest)

theorem map_fst_visits_prefix : (visits hook children).1.map Prod.fst <+: children.map Prod.fst := by
  induction children with
  | nil => exact List.prefix_rfl
  | cons child rest ih =>
    rw [visits]
    rcases encode hook false child.2 with ⟨script, fault | ⟨⟨⟩⟩⟩
    · exact ⟨rest.map Prod.fst, rfl⟩
    · exact List.prefix_cons_inj child.1 |>.mpr ih

theorem exists_child_of_mem_visits {fill : κ × Script} (h : fill ∈ (visits hook children).1) :
    ∃ child ∈ children, child.1 = fill.1 ∧ (encode hook false child.2).1 = fill.2 := by
  induction children with
  | nil => cases h
  | cons child rest ih =>
    rw [visits] at h
    rcases hchild : encode hook false child.2 with ⟨script, fault | ⟨⟨⟩⟩⟩
    · rw [hchild] at h
      obtain rfl := List.mem_singleton.mp h
      exact ⟨child, List.mem_cons_self, rfl, congrArg Prod.fst hchild⟩
    · rw [hchild] at h
      rcases List.mem_cons.mp h with rfl | h
      · exact ⟨child, List.mem_cons_self, rfl, congrArg Prod.fst hchild⟩
      · obtain ⟨other, hother, heq⟩ := ih h
        exact ⟨other, List.mem_cons_of_mem _ hother, heq⟩

theorem exists_visit_of_error {fault : Fault} (h : (visits hook children).2 = .error fault) :
    ∃ child ∈ children, ∃ script, (child.1, script) ∈ (visits hook children).1 ∧
      encode hook false child.2 = (script, .error fault) := by
  induction children with
  | nil => cases h
  | cons child rest ih =>
    rw [visits] at h ⊢
    rcases hchild : encode hook false child.2 with ⟨script, other | ⟨⟨⟩⟩⟩
    · rw [hchild] at h
      cases h
      exact ⟨child, List.mem_cons_self, script, List.mem_cons_self, hchild⟩
    · rw [hchild] at h
      obtain ⟨other, hother, script', hmem, hfault⟩ := ih h
      exact ⟨other, List.mem_cons_of_mem _ hother, script', List.mem_cons_of_mem _ hmem, hfault⟩

def numbered (items : List Datum) : List (Nat × Datum) := items.zipIdx.map Prod.swap

theorem map_fst_numbered (items : List Datum) : (numbered items).map Prod.fst = List.range items.length := by
  rw [numbered, List.map_map, List.range_eq_range', ← List.zipIdx_map_snd 0 items]
  rfl

theorem map_snd_numbered (items : List Datum) : (numbered items).map Prod.snd = items := by
  rw [numbered, List.map_map]
  exact List.zipIdx_map_fst 0 items

theorem genericItems_eq_visits (hook : Hook) (index : Nat) (items : List Datum) :
    genericItems hook index items = visits hook ((items.zipIdx index).map Prod.swap) := by
  induction items generalizing index with
  | nil => rfl
  | cons item items ih =>
    rw [genericItems_cons, ih, List.zipIdx_cons, List.map_cons]
    rfl

theorem genericFields_eq_visits (hook : Hook) {names : List String} (fields : Fields Datum names) :
    genericFields hook fields = visits hook fields.toList := by
  induction fields with
  | nil => rfl
  | cons name value rest ih =>
    rw [genericFields_cons, ih]
    rfl

theorem generic_list (hook : Hook) (items : List Datum) :
    generic hook (list items) =
      ([.list items.length (visits hook (numbered items)).1], (visits hook (numbered items)).2) := by
  rw [generic, genericItems_eq_visits, numbered]

theorem generic_map (hook : Hook) (entries : SortedEntries Datum) :
    generic hook (map entries) =
      ([.map entries.size (visits hook entries.toList).1], (visits hook entries.toList).2) := by
  rw [generic, genericEntries, genericFields_eq_visits]
  rfl

end Visits

end Datum

theorem Entity.encode_eq_generic (hook : Hook) (entity : Entity) :
    Storable.encode hook entity = Datum.generic hook (.map entity.fields) := rfl

end AttributeCodec
