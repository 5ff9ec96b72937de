import AttributeCodec.Proofs.Codec.Rewrite
import AttributeCodec.Proofs.Reader.Strict
import AttributeCodec.Proofs.Slot.Finish
import AttributeCodec.Proofs.Tree.Attribute

/-! An item and its map attribute are encoded and decoded alike. -/

namespace AttributeCodec

open Attribute (Form LawfulForm Members Tagged itemTree)

namespace Entity

variable {hook : Hook} {entity : Entity}

theorem exists_map_of_toTree {tree : Tree} (h : Storable.toTree hook entity = .ok tree) :
    ∃ entries, tree = .map entries := by
  obtain ⟨-, -, hfinish⟩ := bind_eq_ok.mp h
  have htree : (Slot.map entity.size _).tree = .ok tree := Slot.finish_eq_ok_iff.mp hfinish
  obtain ⟨-, entries, -, rfl⟩ := Slot.tree_map_eq_ok_iff.mp htree
  exact ⟨entries, rfl⟩

end Entity

namespace Codec

variable (codec : Codec) (α : Type) [Form α]

def DecodesItemsAsMaps : Prop :=
  ∀ (item : Entries α) (entity : Entity),
    (∀ result, (codec.decodeItem item).run.run entity = (.ok (), result) ↔
      (codec.decode (Form.map item)).run.run entity = (.ok (), result)) ∧
    (∀ fault result, (codec.decodeItem item).run.run entity = (.error fault, result) →
      result = entity ∧ ∃ other, (codec.decode (Form.map item)).run.run entity = (.error other, entity)) ∧
    ∀ fault result, (codec.decode (Form.map item)).run.run entity = (.error fault, result) →
      result = entity ∧ ∃ other, (codec.decodeItem item).run.run entity = (.error other, entity)

def EncodesItemsAsMaps : Prop :=
  ∀ entity : Entity,
    (∀ item : Entries α, codec.encodeItem entity = .ok item ↔ codec.encode entity = .ok (Form.map item)) ∧
    ∀ fault, (codec.encodeItem entity : Except Fault (Entries α)) = .error fault ↔
      (codec.encode entity : Except Fault α) = .error fault

variable {codec α}

theorem encode_eq_map_encodeItem (entity : Entity) :
    (codec.encode entity : Except Fault α) = Form.map <$> codec.encodeItem entity := by
  rw [encode, encodeItem]
  cases htree : Storable.toTree codec.hook entity with
  | error fault => rfl
  | ok tree =>
    obtain ⟨entries, rfl⟩ := Entity.exists_map_of_toTree htree
    show (Tree.map entries).toAttribute = Form.map <$> (Tree.map entries).toItem
    rw [Tree.toAttribute_map, Tree.toItem, Tree.attributeEntries_eq_traverse]

theorem encodesItemsAsMaps (hinjective : Function.Injective (Form.map : Entries α → α)) :
    codec.EncodesItemsAsMaps α := by
  intro entity
  rw [encode_eq_map_encodeItem]
  constructor
  · intro item
    rw [map_eq_ok]
    constructor
    · exact fun h => ⟨item, h, rfl⟩
    · rintro ⟨other, h, hmap⟩
      rwa [← hinjective hmap]
  · exact fun fault => map_eq_error.symm

theorem run_decodeItem_error (codec : Codec) {item : Entries α} {fault : Fault} (h : itemTree item = .error fault)
    (entity : Entity) : (codec.decodeItem item).run.run entity = (.error fault, entity) := by
  rw [decodeItem, h]
  rfl

variable [LawfulForm α]

theorem exists_itemTree_of_decodedFields {hook : Hook} (hhook : hook.OnlyTimestamps) {item : Entries α}
    {entity : Entity} {decoded : SortedEntries Datum}
    (h : entity.decodedFields hook (Attribute.reader (Form.map item)) = .ok decoded) :
    ∃ tree, itemTree item = .ok tree := by
  rw [Attribute.reader, LawfulForm.view_map, Attribute.View.reader_map, Entity.decodedFields] at h
  replace h : Reader.decodeEntries hook entity.typeOf ((item.map Form.view).map Attribute.View.reader) =
    .ok decoded := h
  rw [Reader.decodeEntries_eq_map, map_eq_ok, Entries.map_map, Entries.traverse_map] at h
  obtain ⟨data, hdata, -⟩ := h
  have htrees : ∃ trees, (item.traverse fun _ => Attribute.tree) = .ok trees := by
    refine Entries.exists_traverse_iff.mpr fun entry hentry => ?_
    obtain ⟨datum, hdatum⟩ := Entries.exists_traverse_iff.mp ⟨data, hdata⟩ entry hentry
    exact Attribute.View.exists_tree_of_readable hhook ⟨_, datum, hdatum⟩
  obtain ⟨trees, htrees⟩ := htrees
  exact ⟨.map trees, Attribute.itemTree_eq_ok_iff.mpr ⟨trees, htrees, rfl⟩⟩

theorem decodesItemsAsMaps (hhook : codec.hook.OnlyTimestamps) : codec.DecodesItemsAsMaps α := by
  intro item entity
  cases htree : itemTree item with
  | ok tree =>
    -- With a tree, its reader is that of the attribute, so the two are one decoding.
    have hreader : Attribute.reader (Form.map item) = tree.reader :=
      Attribute.View.reader_of_tree ((Tree.itemTree_eq_tree item).symm.trans htree)
    have hsame : codec.decode (Form.map item) = (codec.decodeItem item : Decoding Entity Unit) := by
      rw [decode, hreader, decodeItem, htree]
    have hkept : ∀ fault result, (codec.decodeItem item).run.run entity = (.error fault, result) →
        result = entity ∧ ∃ other, (codec.decodeItem item).run.run entity = (.error other, entity) := by
      intro fault result h
      have hrun := h
      rw [decodeItem, htree] at hrun
      obtain rfl := Entity.eq_of_run_decode_error hrun
      exact ⟨rfl, fault, h⟩
    rw [hsame]
    exact ⟨fun _ => Iff.rfl, hkept, hkept⟩
  | error fault =>
    have hitem := run_decodeItem_error codec htree entity
    have hmap : ∃ other, (codec.decode (Form.map item)).run.run entity = (.error other, entity) := by
      cases hdecoded : entity.decodedFields codec.hook (Attribute.reader (Form.map item)) with
      | error other => exact ⟨other, Entity.run_decode_error hdecoded⟩
      | ok decoded =>
        obtain ⟨tree, hok⟩ := exists_itemTree_of_decodedFields hhook hdecoded
        rw [hok] at htree
        cases htree
    obtain ⟨other, hmap⟩ := hmap
    rw [hitem, hmap]
    refine ⟨fun result => ?_, fun fault' result h => ?_, fun fault' result h => ?_⟩
    · constructor <;> intro h <;> cases h
    · cases h
      exact ⟨rfl, other, rfl⟩
    · cases h
      exact ⟨rfl, fault, rfl⟩

theorem items_as_maps (codec : Codec) :
    (codec.hook = .none ∨ codec.hook = .timestamps →
      codec.DecodesItemsAsMaps Members ∧ codec.DecodesItemsAsMaps Tagged) ∧
      codec.EncodesItemsAsMaps Members ∧ codec.EncodesItemsAsMaps Tagged := by
  have hmembers : Function.Injective (Form.map : Entries Members → Members) := fun entries others h => by
    cases h
    rfl
  have htagged : Function.Injective (Form.map : Entries Tagged → Tagged) := fun entries others h => by
    cases h
    rfl
  refine ⟨fun hhook => ?_, encodesItemsAsMaps hmembers, encodesItemsAsMaps htagged⟩
  have honly := Hook.onlyTimestamps_of_standard hhook
  exact ⟨decodesItemsAsMaps honly, decodesItemsAsMaps honly⟩

def strayItem : Entries Tagged :=
  .ofList [("label", .string "blue"), ("stray", .list [.bool true, .numberSet ["1"]])] (by decide)

def parcel : Entity := (Entity.set {} "label" (.string "red")).declare "label" .string

theorem items_as_maps_stray :
    (Codec.mk .timestamps none).hook = .timestamps ∧
      ((Codec.mk .timestamps none).decode (Form.map strayItem)).run.run parcel =
        (.error (.unsupportedSet .number), parcel) ∧
      ∃ fault, ((Codec.mk .timestamps none).decodeItem strayItem).run.run parcel = (.error fault, parcel) := by
  have hrun : ((Codec.mk .timestamps none).decode (Form.map strayItem)).run.run parcel =
      (.error (.unsupportedSet .number), parcel) := rfl
  obtain ⟨-, htagged⟩ := (items_as_maps ⟨.timestamps, none⟩).1 (.inr rfl)
  exact ⟨rfl, hrun, ((htagged strayItem parcel).2.2 _ _ hrun).2⟩

end Codec

end AttributeCodec
