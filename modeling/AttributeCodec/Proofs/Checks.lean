import AttributeCodec.Proofs.Traversal

namespace AttributeCodec

variable {α β ε : Type} {check : α → Except ε Unit} {xs ys : List α}

theorem forM_eq_ok_iff : forM xs check = .ok () ↔ ∀ x ∈ xs, check x = .ok () := by
  induction xs with
  | nil => simp
  | cons x xs ih =>
    rw [List.forM_cons, bind_eq_ok, List.forall_mem_cons, ← ih]
    exact ⟨fun ⟨_, h⟩ => h, fun h => ⟨(), h⟩⟩

theorem exists_mem_of_forM_eq_error {fault : ε} (h : forM xs check = .error fault) :
    ∃ x ∈ xs, check x = .error fault := by
  induction xs with
  | nil => cases h
  | cons x xs ih =>
    rw [List.forM_cons] at h
    rcases bind_eq_error.mp h with hx | ⟨_, -, hxs⟩
    · exact ⟨x, List.mem_cons_self, hx⟩
    · obtain ⟨y, hy, hfault⟩ := ih hxs
      exact ⟨y, List.mem_cons_of_mem x hy, hfault⟩

theorem forM_congr {other : α → Except ε Unit} (h : ∀ x ∈ xs, check x = other x) : forM xs check = forM xs other := by
  induction xs with
  | nil => rfl
  | cons x xs ih =>
    obtain ⟨hx, hxs⟩ := List.forall_mem_cons.mp h
    rw [List.forM_cons, List.forM_cons, hx, ih hxs]

theorem forM_flatMap (f : β → List α) (bs : List β) :
    forM (bs.flatMap f) check = forM bs fun b => forM (f b) check := by
  induction bs with
  | nil => rfl
  | cons b bs ih => rw [List.flatMap_cons, List.forM_append, ih, List.forM_cons]

end AttributeCodec
