import AttributeCodec.Proofs.Codec.Item
import AttributeCodec.Proofs.Datum.Generic
import AttributeCodec.Proofs.Entries.Overlay

namespace AttributeCodec

open Attribute (Form)

namespace Entity

variable {hook : Hook} {entity : Entity}

theorem field_eq_ok_iff {name : String} {datum : Datum} :
    Storable.field entity name = .ok datum ↔ entity.get? name = some datum := by
  show entity.field name = .ok datum ↔ _
  rw [field]
  cases entity.get? name with
  | none => simp
  | some value => simp

theorem field_eq_error {name : String} (h : entity.get? name = none) :
    Storable.field entity name = .error (.missingField name) := by
  show entity.field name = _
  rw [field, h]
  rfl

theorem encode_eq (hook : Hook) (entity : Entity) :
    Storable.encode hook entity =
      ([.map entity.size (Datum.genericFields hook entity.fields.fields).1],
        (Datum.genericFields hook entity.fields.fields).2) := by
  show entity.encode hook = _
  rw [encode, Datum.genericEntries]

theorem encode_of_genericFields {fills : List (String × Script)}
    (h : Datum.genericFields hook entity.fields.fields = (fills, .ok ())) :
    fills.map Prod.fst = entity.fields.names ∧ ∀ fill ∈ fills, ∃ datum, entity.get? fill.1 = some datum ∧
      Datum.encode hook false datum = (fill.2, .ok ()) := by
  rw [Datum.genericFields_eq_visits] at h
  have hall := Datum.forall₂_visits h
  constructor
  · rw [← entity.fields.fields.map_fst_toList]
    exact (map_eq_map_of_forall₂ hall fun _ _ _ hfill => hfill.1).symm
  · refine forall_mem_of_forall₂ hall ?_
    rintro ⟨name, datum⟩ hmem ⟨_, script⟩ ⟨rfl, hencode⟩
    exact ⟨datum, SortedEntries.get?_eq_some_iff.mpr hmem, hencode⟩

theorem exists_entries_of_toTree {tree : Tree} (h : Storable.toTree hook entity = .ok tree) :
    ∃ entries, .map entries = tree ∧ (∀ name, name ∈ entries.names ↔ name ∈ entity.fields.names) ∧
      ∀ entry ∈ entries.toList, ∃ datum, entity.get? entry.1 = some datum ∧ datum.toTree hook = .ok entry.2 := by
  obtain ⟨⟨⟩, hresult, hfinish⟩ := bind_eq_ok.mp h
  rw [encode_eq] at hresult hfinish
  obtain ⟨fills, hfills⟩ : ∃ fills, Datum.genericFields hook entity.fields.fields = (fills, .ok ()) :=
    ⟨_, Prod.ext rfl hresult⟩
  rw [hfills] at hfinish
  obtain ⟨hfillNames, hfill⟩ := encode_of_genericFields hfills
  obtain ⟨entries, htree, -, hnames, hchildren⟩ := Slot.exists_entries_of_tree (Slot.finish_eq_ok_iff.mp hfinish)
  refine ⟨entries, htree, fun name => by rw [hnames, hfillNames], fun entry hentry => ?_⟩
  obtain ⟨⟨_, script⟩, hmem, rfl⟩ := List.mem_map.mp ((hnames entry.1).mp (Entries.mem_names_of_mem hentry))
  obtain ⟨datum, hget, hdatum⟩ := hfill _ hmem
  -- The names of an entity are distinct, so a field's slot sees the visit with its own script and no other.
  have hnodup : (fills.map Prod.fst).Nodup := by
    rw [hfillNames]
    exact entity.fields.ascending.imp String.ne_of_lt
  have hchild := hchildren entry hentry
  rw [visitsTo_of_mem hnodup hmem] at hchild
  refine ⟨datum, hget, ?_⟩
  rw [Datum.toTree, hdatum]
  exact Slot.finish_eq_ok_iff.mpr hchild

end Entity

namespace Codec

variable {codec : Codec} {α : Type} [Form α] {entity : Entity}

def encodeField (codec : Codec) (entity : Entity) (name : String) : Except Fault α := do
  codec.encodeDatum (← Storable.field entity name)

theorem encodeField_eq_ok_iff {name : String} {attr : α} :
    codec.encodeField entity name = .ok attr ↔
      ∃ datum, entity.get? name = some datum ∧ codec.encodeDatum datum = .ok attr := by
  simp only [encodeField, bind_eq_ok, Entity.field_eq_ok_iff]

theorem encodeField_of_encodeItem {item : Entries α} (h : codec.encodeItem entity = .ok item) :
    (∀ name, name ∈ item.names ↔ name ∈ entity.fields.names) ∧
      ∀ entry ∈ item.toList, codec.encodeField entity entry.1 = .ok entry.2 := by
  obtain ⟨tree, htree, hitem⟩ := bind_eq_ok.mp h
  obtain ⟨entries, rfl, hnames, hdata⟩ := Entity.exists_entries_of_toTree htree
  rw [Tree.toItem, Tree.attributeEntries_eq_traverse] at hitem
  refine ⟨fun name => by rw [Entries.names_of_traverse hitem, hnames], fun entry hentry => ?_⟩
  obtain ⟨tree, htree, hattr⟩ := Entries.get?_of_traverse hitem (Entries.get?_of_mem_toList hentry)
  obtain ⟨datum, hget, hdatum⟩ := hdata _ (Entries.get?_eq_some_iff.mp htree)
  exact encodeField_eq_ok_iff.mpr ⟨datum, hget, bind_eq_ok.mpr ⟨tree, hdatum, hattr⟩⟩

end Codec

end AttributeCodec
