import AttributeCodec.Codec
import AttributeCodec.Proofs.Datum.RoundTrip
import AttributeCodec.Proofs.Entity.Decode

namespace AttributeCodec

open Attribute (Form LawfulForm Members Tagged)

namespace Codec

variable (codec : Codec) (α : Type) [Form α]

def Restores (type : DatumType) (datum result : Datum) : Prop :=
  ∃ attr : α, codec.encodeDatum datum = .ok attr ∧ codec.decodeDatum type attr = .ok result

/-- The entity has an item of this form, of which an entity of the same types and without fields becomes
`result`. -/
def RestoresEntity (entity result : Entity) : Prop :=
  ∃ item : Entries α, codec.encodeItem entity = .ok item ∧
    (codec.decodeItem item : Decoding Entity Unit).run.run { types := entity.types } = (.ok (), result)

variable {codec α}

theorem Restores.result_eq {type : DatumType} {datum result other : Datum} (h : codec.Restores α type datum result)
    (hother : codec.Restores α type datum other) : result = other := by
  obtain ⟨attr, hattr, hresult⟩ := h
  obtain ⟨otherAttr, hotherAttr, hotherResult⟩ := hother
  obtain rfl := Except.ok.inj (hattr.symm.trans hotherAttr)
  exact Except.ok.inj (hresult.symm.trans hotherResult)

theorem run_decodeItem (hhook : codec.hook = .timestamps) {item : Entries α} {fields : SortedEntries Datum}
    (htree : Attribute.itemTree item = .ok (Datum.map fields).tree.normal) {types : SortedEntries DatumType}
    {decoded : SortedEntries Datum}
    (h : Reader.decodeEntries .timestamps (Entity.typeOf { types := types }) (Datum.entryReaders fields) =
      .ok decoded) :
    (codec.decodeItem item : Decoding Entity Unit).run.run { types := types } =
      (.ok (), { types := types, fields := decoded }) := by
  have hfields : Entity.decodedFields .timestamps { types := types } (Datum.map fields).reader = .ok decoded := by
    rw [Datum.reader_map]
    exact h
  have hrun := Entity.run_decode hfields
  rw [SortedEntries.overlay_empty] at hrun
  rw [decodeItem, htree, hhook]
  exact hrun

variable [LawfulForm α]

theorem exists_encodeDatum (hhook : codec.hook = .timestamps) (datum : Datum) :
    ∃ attr : α, codec.encodeDatum datum = .ok attr ∧
      ∀ type, codec.decodeDatum type attr = datum.reader.decode .timestamps type := by
  obtain ⟨attr, hattr, htree⟩ := Tree.returns_normal (α := α) datum.setFree_tree
  refine ⟨attr, ?_, fun type => ?_⟩
  · rw [encodeDatum, hhook, Datum.toTree_timestamps]
    exact hattr
  · have hreader : Attribute.reader attr = datum.reader := Attribute.View.reader_of_tree htree
    rw [decodeDatum, hhook, hreader]

theorem restores_of_decode (hhook : codec.hook = .timestamps) {type : DatumType} {datum result : Datum}
    (h : datum.reader.decode .timestamps type = .ok result) : codec.Restores α type datum result := by
  obtain ⟨attr, hattr, hdecode⟩ := exists_encodeDatum (α := α) hhook datum
  exact ⟨attr, hattr, (hdecode type).trans h⟩

theorem restores_of_fits (hhook : codec.hook = .timestamps) {type : DatumType} {datum : Datum}
    (h : datum.Fits type) : codec.Restores α type datum datum.unsignedZeros :=
  restores_of_decode hhook (Datum.decode_reader h)

theorem exists_encodeItem (hhook : codec.hook = .timestamps) (entity : Entity) :
    ∃ item : Entries α, codec.encodeItem entity = .ok item ∧
      Attribute.itemTree item = .ok (Datum.map entity.fields).tree.normal := by
  have hfree := (Datum.map entity.fields).setFree_tree
  rw [Datum.tree_map] at hfree
  obtain ⟨item, hitem, htree⟩ := Tree.exists_toItem (α := α) hfree
  rw [← Datum.tree_map] at hitem htree
  refine ⟨item, ?_, htree⟩
  rw [encodeItem, hhook, Entity.toTree_timestamps]
  exact hitem

theorem restoresEntity_of_fits (hhook : codec.hook = .timestamps) {entity : Entity}
    (h : ∀ entry ∈ entity.fields.toList, entry.2.Fits (entity.typeOf entry.1)) :
    codec.RestoresEntity α entity { entity with fields := entity.fields.map Datum.unsignedZeros } := by
  obtain ⟨item, hitem, htree⟩ := exists_encodeItem (α := α) hhook entity
  refine ⟨item, hitem, run_decodeItem hhook htree ?_⟩
  exact Datum.decodeEntries_entryReaders fun entry hentry => Datum.decode_reader (h entry hentry)

theorem restores_timestamps (hhook : codec.hook = .timestamps) :
    (∀ x y : Binary64, x.unsignedZero = y.unsignedZero ↔ x.numEq y = true ∨ (x = .nan ∧ y = .nan)) ∧
    (∀ {type : DatumType} {datum : Datum}, datum.Fits type →
      codec.Restores Members type datum datum.unsignedZeros ∧
        codec.Restores Tagged type datum datum.unsignedZeros) ∧
    ∀ {entity : Entity}, (∀ entry ∈ entity.fields.toList, entry.2.Fits (entity.typeOf entry.1)) →
      codec.RestoresEntity Members entity
          { entity with fields := entity.fields.map Datum.unsignedZeros } ∧
        codec.RestoresEntity Tagged entity
          { entity with fields := entity.fields.map Datum.unsignedZeros } :=
  ⟨fun _ _ => Binary64.unsignedZero_eq_iff, fun h => ⟨restores_of_fits hhook h, restores_of_fits hhook h⟩,
    fun h => ⟨restoresEntity_of_fits hhook h, restoresEntity_of_fits hhook h⟩⟩

def sparse : Datum := .list [.null, .list [.float (.finite ⟨true, 0, Binary64.representable_zero⟩)]]

def leapSecond : Instant :=
  ⟨1483228799, 1500000000, by decide, by decide, by decide⟩

def watched : Entity :=
  (Entity.set {} "seen" (.list [.timestamp leapSecond])).declare "seen" (.list .timestamp)

theorem restores_timestamps_sparse_watched :
    sparse.Fits (.list (.list .float)) ∧
      (∀ entry ∈ watched.fields.toList, entry.2.Fits (watched.typeOf entry.1)) ∧
      (Codec.mk .timestamps none).Restores Members (.list (.list .float)) sparse
        (.list [.null, .list [.float .zero]]) ∧
      (Codec.mk .timestamps none).RestoresEntity Tagged watched watched := by
  have hsparse : sparse.Fits (.list (.list .float)) := by
    refine ⟨rfl, ?_, ?_⟩
    · simp [sparse, DatumType.Contains]
    · simp [sparse, Datum.nodes, Datum.nodesOfItems, Datum.Exact]
  have hyear : 0 ≤ leapSecond.date.year ∧ leapSecond.date.year ≤ 9999 := by decide +kernel
  have hplace : leapSecond.LeapInPlace := by decide
  have hfields : watched.fields.toList = [("seen", .list [.timestamp leapSecond])] := rfl
  have htype : watched.typeOf "seen" = .list .timestamp := rfl
  have hwatched : ∀ entry ∈ watched.fields.toList, entry.2.Fits (watched.typeOf entry.1) := by
    rw [hfields, List.forall_mem_singleton, htype]
    refine ⟨rfl, ?_, ?_⟩
    · simp [DatumType.Contains]
    · simp [Datum.nodes, Datum.nodesOfItems, Datum.Exact, hyear, hplace]
  have hhook : (Codec.mk .timestamps none).hook = .timestamps := rfl
  obtain ⟨-, hdatum, hentity⟩ := restores_timestamps hhook
  refine ⟨hsparse, hwatched, ?_, ?_⟩
  · exact (hdatum hsparse).1
  · exact (hentity hwatched).2

theorem strayLeap_restored_as_secondAfter :
    DatumType.timestamp.isDefinite = true ∧ DatumType.timestamp.Contains (.timestamp Instant.strayLeap) ∧
      (0 ≤ Instant.strayLeap.date.year ∧ Instant.strayLeap.date.year ≤ 9999) ∧
      (Codec.mk .timestamps none).Restores Members .timestamp (.timestamp Instant.strayLeap)
        (.timestamp Instant.secondAfter) ∧
      ¬(Codec.mk .timestamps none).Restores Members .timestamp (.timestamp Instant.strayLeap)
        (.timestamp Instant.strayLeap) := by
  obtain ⟨hcarried, hne⟩ := Instant.carried_strayLeap
  have hrestores : (Codec.mk .timestamps none).Restores Members .timestamp (.timestamp Instant.strayLeap)
      (.timestamp Instant.secondAfter) :=
    restores_of_decode rfl (hcarried ▸ Datum.decode_timestamp_carried Instant.year_strayLeap)
  refine ⟨rfl, trivial, Instant.year_strayLeap, hrestores, fun h => hne ?_⟩
  exact Datum.timestamp.inj (h.result_eq hrestores)

end Codec

end AttributeCodec
