import AttributeCodec.Proofs.Datum.InRange
import AttributeCodec.Proofs.Datum.Reached
import AttributeCodec.Proofs.Datum.RoundTrip
import AttributeCodec.Proofs.Entity.Encode

namespace AttributeCodec

namespace Datum

inductive MirroredBy : Datum → Tree → Prop
  | null : MirroredBy null .null
  | bool (value : Bool) : MirroredBy (bool value) (.bool value)
  | int (value : Int64) : MirroredBy (int value) (.number (.int value))
  | uint (value : UInt64) : MirroredBy (uint value) (.number (.uint value))
  | float (value : Binary64) : MirroredBy (float value) (.number (.float value))
  | complex (re im : Binary64) : MirroredBy (complex re im) (.complex re im)
  | bytes (value : List UInt8) : MirroredBy (bytes value) (.bytes value)
  | blank : MirroredBy (string "") .null
  | string {text : String} (full : text ≠ "") : MirroredBy (string text) (.string text)
  | timestamp (instant : Instant) : MirroredBy (timestamp instant) (.string instant.text)
  | list {items : List Datum} {trees : List Tree} (length : trees.length = items.length)
      (children : ∀ (index : Nat) item tree, items[index]? = some item → trees[index]? = some tree →
        MirroredBy item tree) : MirroredBy (list items) (.list trees)
  | map {entries : SortedEntries Datum} {trees : Entries Tree}
      (names : ∀ name, name ∈ trees.names ↔ name ∈ entries.names)
      (children : ∀ name value tree, entries.get? name = some value → trees.get? name = some tree →
        MirroredBy value tree) : MirroredBy (map entries) (.map trees)

theorem mirroredBy_tree (datum : Datum) : datum.MirroredBy datum.tree := by
  induction datum with
  | null => exact .null
  | bool value => exact .bool value
  | int value => exact .int value
  | uint value => exact .uint value
  | float value => exact .float value
  | complex re im => exact .complex re im
  | bytes value => exact .bytes value
  | string text =>
    by_cases hblank : text = ""
    · subst hblank
      exact .blank
    · rw [tree, Tree.ofText, if_neg (by simpa using hblank)]
      exact .string hblank
  | timestamp instant =>
    rw [tree_timestamp]
    exact .timestamp instant
  | list items ih =>
    rw [tree_list]
    refine .list (List.length_map _) fun index item other hitem hother => ?_
    rw [List.getElem?_map, hitem] at hother
    cases hother
    exact ih item (List.mem_of_getElem? hitem)
  | map entries ih =>
    rw [tree_map]
    refine .map (fun _ => Iff.rfl) fun name value other hvalue hother => ?_
    have hentry : (entries.toEntries.map tree).get? name = (entries.get? name).map tree :=
      entries.toEntries.get?_map tree name
    rw [hentry, hvalue] at hother
    cases hother
    exact ih (name, value) (SortedEntries.get?_eq_some_iff.mp hvalue)

theorem nodesOfItems_eq_flatMap (items : List Datum) : nodesOfItems items = items.flatMap nodes := by
  induction items with
  | nil => rfl
  | cons item items ih => rw [nodesOfItems, ih, List.flatMap_cons]

theorem nodesOfFields_eq_flatMap {names : List String} (fields : Fields Datum names) :
    nodesOfFields fields = (fields.toList.map Prod.snd).flatMap nodes := by
  induction fields with
  | nil => rfl
  | cons name value rest ih => rw [nodesOfFields, ih, Fields.toList, List.map_cons, List.flatMap_cons]

theorem reached_none (datum : Datum) : datum.reached .none = datum.nodes := by
  induction datum with
  | list items ih =>
    rw [reached_of_decline rfl, reachedInside_list, nodes, nodesOfItems_eq_flatMap]
    exact congrArg (list items :: ·) (List.flatMap_congr ih)
  | map entries ih =>
    rw [reached_of_decline rfl, reachedInside_map, nodes, nodesOfEntries, nodesOfFields_eq_flatMap]
    exact congrArg (map entries :: ·) (List.flatMap_congr (List.forall_mem_map.mpr ih))
  | _ => rfl

theorem eq_noEncoding_of_checkKind {datum : Datum} {fault : Fault} (h : datum.checkKind = .error fault) :
    fault = .noEncoding "timestamp" := by
  cases datum <;> cases h
  rfl

theorem encode_none_of_timestamp {datum : Datum} {instant : Instant} (h : timestamp instant ∈ datum.nodes) :
    (encode .none false datum).2 = .error (.noEncoding "timestamp") := by
  rw [encode_result, reached_none]
  cases hresult : forM datum.nodes Hook.none.check with
  | ok => cases forM_eq_ok_iff.mp hresult _ h
  | error fault =>
    obtain ⟨node, -, hnode⟩ := exists_mem_of_forM_eq_error hresult
    rw [eq_noEncoding_of_checkKind hnode]

end Datum

namespace Encoding

structure Portrays (encoding : Encoding) (datum : Datum) : Prop where
  result : encoding.2 = .ok ()
  inRange : encoding.1.InRange
  finish : ∃ tree, (Slot.unset.run encoding.1).finish = .ok tree ∧ datum.MirroredBy tree

theorem Portrays.of_leaves {encoding : Encoding} {datum : Datum} (h : encoding.Leaves datum.tree)
    (hrange : encoding.1.InRange) : encoding.Portrays datum := by
  obtain ⟨script, rfl, hscript⟩ := h
  exact ⟨rfl, hrange, _, Slot.finish_eq_ok_iff.mpr (hscript .unset), datum.mirroredBy_tree⟩

structure PortraysWithEach (encode : Hook → Encoding) (datum : Datum) : Prop where
  timestamps : (encode .timestamps).Portrays datum
  none : datum.TimestampFree → (encode .none).Portrays datum
  none_of_timestamp : ∀ instant, .timestamp instant ∈ datum.nodes →
    (encode .none).2 = .error (.noEncoding "timestamp")

theorem portrays_datum (datum : Datum) : PortraysWithEach (fun hook => datum.encode hook false) datum where
  timestamps := .of_leaves (Datum.leaves_encode false datum) (Datum.inRange_encode .timestamps false datum)
  none hfree :=
    .of_leaves (Datum.leaves_encode_of_covers false (.inr ⟨rfl, hfree⟩)) (Datum.inRange_encode .none false datum)
  none_of_timestamp _ := Datum.encode_none_of_timestamp

theorem portrays_entity (entity : Entity) :
    PortraysWithEach (fun hook => Storable.encode hook entity) (.map entity.fields) where
  timestamps := .of_leaves (Entity.leaves_encode (.inl rfl)) (Entity.inRange_encode .timestamps entity)
  none hfree := .of_leaves (Entity.leaves_encode (.inr ⟨rfl, hfree⟩)) (Entity.inRange_encode .none entity)
  none_of_timestamp _ htimestamp := Datum.encode_none_of_timestamp htimestamp

theorem portrays_all :
    (∀ datum : Datum, PortraysWithEach (fun hook => datum.encode hook false) datum) ∧
      ∀ entity : Entity, PortraysWithEach (fun hook => Storable.encode hook entity) (.map entity.fields) ∧
        ∀ hook tree, Storable.toTree hook entity = .ok tree →
          ∃ entries, tree = .map entries ∧ ∀ name, name ∈ entries.names ↔ name ∈ entity.fields.names := by
  refine ⟨portrays_datum, fun entity => ⟨portrays_entity entity, fun hook tree htree => ?_⟩⟩
  obtain ⟨entries, rfl, hnames, -⟩ := Entity.exists_entries_of_toTree htree
  exact ⟨entries, rfl, hnames⟩

def voyage : Datum :=
  .map (.ofList [("log", .list [.string "", .string "calm", .complex .zero .nan]), ("crew", .uint 7)])

def departure : Instant := ⟨1495324800, 60000000, by decide, by decide, by decide⟩

def loggedVoyage : Entity := { fields := .ofList [("voyage", voyage), ("stops", .list [.null, .timestamp departure])] }

theorem portrays_all_voyage :
    voyage.TimestampFree ∧ (voyage.encode .none false).Portrays voyage ∧
      .timestamp departure ∈ (Datum.map loggedVoyage.fields).nodes ∧
      (Storable.encode .none loggedVoyage).2 = .error (.noEncoding "timestamp") ∧
      ∃ tree, Storable.toTree .timestamps loggedVoyage = .ok tree ∧
        ∃ entries, tree = .map entries ∧ ∀ name, name ∈ entries.names ↔ name ∈ loggedVoyage.fields.names := by
  have hvoyage : voyage.nodes = [voyage, .uint 7, .list [.string "", .string "calm", .complex .zero .nan],
    .string "", .string "calm", .complex .zero .nan] := rfl
  have hlogged : (Datum.map loggedVoyage.fields).nodes = [.map loggedVoyage.fields,
    .list [.null, .timestamp departure], .null, .timestamp departure] ++ voyage.nodes := rfl
  have hfree : voyage.TimestampFree := by
    rw [Datum.TimestampFree, hvoyage]
    simp [voyage]
  have htimestamp : .timestamp departure ∈ (Datum.map loggedVoyage.fields).nodes := by
    rw [hlogged]
    simp
  obtain ⟨hdatum, hentity⟩ := portrays_all
  obtain ⟨heach, hmap⟩ := hentity loggedVoyage
  have htree := Entity.toTree_timestamps loggedVoyage
  exact ⟨hfree, (hdatum voyage).none hfree, htimestamp, heach.none_of_timestamp departure htimestamp,
    _, htree, hmap .timestamps _ htree⟩

end Encoding

end AttributeCodec
