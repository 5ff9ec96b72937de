import AttributeCodec.Entity
import AttributeCodec.Proofs.Traversal

namespace AttributeCodec

namespace Decoding

theorem run_get_bind {δ β : Type} (f : δ → Decoding δ β) (stored : δ) :
    (get >>= f).run.run stored = (f stored).run.run stored := rfl

theorem run_bind {δ β γ : Type} (first : Decoding δ β) (second : β → Decoding δ γ) (stored : δ) :
    (first >>= second).run.run stored =
      match first.run.run stored with
      | (.ok value, middle) => (second value).run.run middle
      | (.error fault, middle) => (.error fault, middle) := by
  rw [ExceptT.run_bind, StateT.run_bind]
  obtain ⟨outcome, middle⟩ := first.run.run stored
  cases outcome <;> rfl

theorem run_bind_eq_ok_iff {δ : Type} {first second : Decoding δ Unit} {stored result : δ} :
    (first >>= fun _ => second).run.run stored = (.ok (), result) ↔
      ∃ middle, first.run.run stored = (.ok (), middle) ∧ second.run.run middle = (.ok (), result) := by
  rw [run_bind]
  obtain ⟨outcome, middle⟩ := first.run.run stored
  cases outcome with
  | error fault =>
    constructor
    · intro h
      cases h
    · rintro ⟨_, h, -⟩
      cases h
  | ok =>
    refine ⟨fun h => ⟨middle, rfl, h⟩, ?_⟩
    rintro ⟨_, h, hsecond⟩
    cases h
    exact hsecond

end Decoding

namespace Entity

variable {hook : Hook} {reader : Reader} {entity result : Entity}

def overlay (entity : Entity) (data : SortedEntries Datum) : Entity :=
  { entity with fields := entity.fields.overlay data }

def settled (entity : Entity) : Except Fault (SortedEntries Datum) → Except Fault Unit × Entity
  | .ok data => (.ok (), entity.overlay data)
  | .error fault => (.error fault, entity)

theorem settled_eq_ok_iff {data : Except Fault (SortedEntries Datum)} :
    entity.settled data = (.ok (), result) ↔ ∃ decoded, data = .ok decoded ∧ entity.overlay decoded = result := by
  cases data with
  | ok decoded => simp [settled]
  | error fault => simp [settled]

theorem eq_of_settled_eq_error {data : Except Fault (SortedEntries Datum)} {fault : Fault}
    (h : entity.settled data = (.error fault, result)) : result = entity := by
  cases data with
  | ok decoded => cases h
  | error other =>
    cases h
    rfl

theorem run_decode_eq_settled (hook : Hook) (reader : Reader) (entity : Entity) :
    (decode hook reader).run.run entity = entity.settled (entity.decodedFields hook reader) := by
  rw [decode, Decoding.run_get_bind]
  cases entity.decodedFields hook reader <;> rfl

theorem run_decode {decoded : SortedEntries Datum} (h : entity.decodedFields hook reader = .ok decoded) :
    (decode hook reader).run.run entity =
      (.ok (), { entity with fields := entity.fields.overlay decoded }) := by
  rw [run_decode_eq_settled, h]
  rfl

theorem run_decode_error {fault : Fault} (h : entity.decodedFields hook reader = .error fault) :
    (decode hook reader).run.run entity = (.error fault, entity) := by
  rw [run_decode_eq_settled, h]
  rfl

theorem eq_of_run_decode_error {fault : Fault} (h : (decode hook reader).run.run entity = (.error fault, result)) :
    result = entity := by
  rw [run_decode_eq_settled] at h
  exact eq_of_settled_eq_error h

theorem decodedFields_of_run_decode (h : (decode hook reader).run.run entity = (.ok (), result)) :
    ∃ decoded, entity.decodedFields hook reader = .ok decoded ∧
      result = { entity with fields := entity.fields.overlay decoded } := by
  rw [run_decode_eq_settled, settled_eq_ok_iff] at h
  obtain ⟨decoded, hdecoded, rfl⟩ := h
  exact ⟨decoded, hdecoded, rfl⟩

end Entity

end AttributeCodec
