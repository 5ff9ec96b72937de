import AttributeCodec.Proofs.Codec.Item
import AttributeCodec.Proofs.Entries.Overlay

namespace AttributeCodec

namespace Reader

variable {hook : Hook} {type : String → DatumType} {entries : Entries Reader} {data : SortedEntries Datum}

theorem exists_decodeEntries_iff :
    (∃ data, decodeEntries hook type entries = .ok data) ↔
      ∀ entry ∈ entries.toList, ∃ datum, entry.2.decode hook (type entry.1) = .ok datum := by
  rw [← Entries.exists_traverse_iff (f := fun name => decode hook (type name)), decodeEntries_eq_map]
  simp only [map_eq_ok]
  constructor
  · rintro ⟨_, fields, hfields, rfl⟩
    exact ⟨fields, hfields⟩
  · rintro ⟨fields, hfields⟩
    exact ⟨_, fields, hfields, rfl⟩

theorem get?_of_decodeEntries (h : decodeEntries hook type entries = .ok data) :
    (∀ entry ∈ entries.toList, ∃ datum, entry.2.decode hook (type entry.1) = .ok datum ∧
      data.get? entry.1 = some datum) ∧ ∀ name, name ∉ entries.names → data.get? name = none := by
  obtain ⟨fields, hfields, rfl⟩ := decodeEntries_eq_ok_iff.mp h
  have hnodup : (fields.toList.map Prod.fst).Nodup := by
    rw [fields.map_fst_toList]
    exact entries.distinct
  refine ⟨fun entry hentry => ?_, fun name hname => ?_⟩
  · obtain ⟨other, hother, hname, hdatum⟩ :=
      exists_mem_of_forall₂ (Fields.traverse_eq_ok_iff.mp hfields) entry hentry
    refine ⟨other.2, hdatum, ?_⟩
    rw [SortedEntries.get?_ofList hnodup, hname]
    exact lookup_of_mem hnodup hother
  · rw [SortedEntries.get?_ofList hnodup]
    refine lookup_of_not_mem ?_
    rwa [fields.map_fst_toList]

theorem decodeEntries_eq_error {before after : List (String × Reader)} {entry : String × Reader} {fault : Fault}
    (hlist : entries.toList = before ++ entry :: after)
    (hbefore : ∀ earlier ∈ before, ∃ datum, earlier.2.decode hook (type earlier.1) = .ok datum)
    (hentry : entry.2.decode hook (type entry.1) = .error fault) :
    decodeEntries hook type entries = .error fault := by
  rw [decodeEntries_eq_map, map_eq_error, Entries.traverse,
    Fields.traverse_eq_error_of_append hlist hbefore hentry]
  rfl

end Reader

namespace Entity

variable {hook : Hook} {reader : Reader} {entity result : Entity} {entries : Entries Reader}

def sources (reader : Reader) : Except Fault (Entries Reader) :=
  match reader.set? with
  | some set => throw (.unsupportedSet set)
  | none => reader.map

structure Overlaid (hook : Hook) (entries : Entries Reader) (entity result : Entity) : Prop where
  types : result.types = entity.types
  entry : ∀ entry ∈ entries.toList, ∃ datum, entry.2.decode hook (entity.typeOf entry.1) = .ok datum ∧
    result.get? entry.1 = some datum
  other : ∀ name, name ∉ entries.names → result.get? name = entity.get? name

theorem ext_get? (htypes : entity.types = result.types) (hget : ∀ name, entity.get? name = result.get? name) :
    entity = result := by
  obtain ⟨fields, types⟩ := entity
  obtain ⟨fields', types'⟩ := result
  obtain rfl : types = types' := htypes
  obtain rfl : fields = fields' := SortedEntries.ext_get? hget
  rfl

theorem get?_overlay (entity : Entity) (data : SortedEntries Datum) (name : String) :
    (entity.overlay data).get? name = (data.get? name).or (entity.get? name) :=
  entity.fields.get?_overlay data name

theorem overlaid_of_decodeEntries {data : SortedEntries Datum}
    (h : Reader.decodeEntries hook entity.typeOf entries = .ok data) :
    Overlaid hook entries entity (entity.overlay data) := by
  obtain ⟨hdecoded, hnone⟩ := Reader.get?_of_decodeEntries h
  refine ⟨rfl, fun entry hmem => ?_, fun name hname => ?_⟩
  · obtain ⟨datum, hdatum, hget⟩ := hdecoded entry hmem
    exact ⟨datum, hdatum, by rw [get?_overlay, hget, Option.some_or]⟩
  · rw [get?_overlay, hnone name hname, Option.none_or]

theorem Overlaid.unique {other : Entity} (h : Overlaid hook entries entity result)
    (hother : Overlaid hook entries entity other) : result = other := by
  refine ext_get? (h.types.trans hother.types.symm) fun name => ?_
  by_cases hname : name ∈ entries.names
  · obtain ⟨entry, hmem, rfl⟩ := Entries.mem_names_iff.mp hname
    obtain ⟨datum, hdatum, hget⟩ := h.entry entry hmem
    obtain ⟨datum', hdatum', hget'⟩ := hother.entry entry hmem
    rw [hget, hget', Except.ok.inj (hdatum.symm.trans hdatum')]
  · rw [h.other name hname, hother.other name hname]

theorem overlaid_iff :
    Overlaid hook entries entity result ↔
      ∃ data, Reader.decodeEntries hook entity.typeOf entries = .ok data ∧ entity.overlay data = result := by
  constructor
  · intro h
    obtain ⟨data, hdata⟩ := Reader.exists_decodeEntries_iff.mpr fun entry hmem =>
      (h.entry entry hmem).imp fun _ hdatum => hdatum.1
    exact ⟨data, hdata, (overlaid_of_decodeEntries hdata).unique h⟩
  · rintro ⟨data, hdata, rfl⟩
    exact overlaid_of_decodeEntries hdata

theorem exists_overlaid_iff {source : Except Fault (Entries Reader)} :
    (∃ entries, source = .ok entries ∧ Overlaid hook entries entity result) ↔
      ∃ data, source >>= Reader.decodeEntries hook entity.typeOf = .ok data ∧ entity.overlay data = result := by
  simp only [overlaid_iff, bind_eq_ok]
  constructor
  · rintro ⟨entries, hentries, data, hdata, hresult⟩
    exact ⟨data, ⟨entries, hentries, hdata⟩, hresult⟩
  · rintro ⟨data, ⟨entries, hentries, hdata⟩, hresult⟩
    exact ⟨entries, hentries, data, hdata, hresult⟩

theorem typeOf_congr (h : entity.types = result.types) : entity.typeOf = result.typeOf := by
  funext name
  rw [typeOf, h, typeOf]

theorem Overlaid.again (h : Overlaid hook entries entity result) : Overlaid hook entries result result := by
  refine ⟨rfl, ?_, fun _ _ => rfl⟩
  rw [typeOf_congr h.types]
  exact h.entry

/-- A decoding of these entries, if there are any, lays what they decode as over the fields of the entity, and
leaves the entity as it was if one of them does not decode. -/
structure Overlays (hook : Hook) (decoding : Decoding Entity Unit) (source : Except Fault (Entries Reader)) :
    Prop where
  kept : ∀ entity fault result, decoding.run.run entity = (.error fault, result) → result = entity
  done_iff : ∀ entity result, decoding.run.run entity = (.ok (), result) ↔
    ∃ entries, source = .ok entries ∧ Overlaid hook entries entity result
  unread : ∀ entity fault, source = .error fault → decoding.run.run entity = (.error fault, entity)
  total : ∀ (entity : Entity) entries, source = .ok entries →
    (∀ entry ∈ entries.toList, ∃ datum, entry.2.decode hook (entity.typeOf entry.1) = .ok datum) →
      ∃ result, decoding.run.run entity = (.ok (), result)
  stopped : ∀ (entity : Entity) entries before entry after fault, source = .ok entries →
    entries.toList = before ++ entry :: after →
    (∀ earlier ∈ before, ∃ datum, earlier.2.decode hook (entity.typeOf earlier.1) = .ok datum) →
    entry.2.decode hook (entity.typeOf entry.1) = .error fault →
      decoding.run.run entity = (.error fault, entity)
  again : ∀ entity result, decoding.run.run entity = (.ok (), result) →
    decoding.run.run result = (.ok (), result)

theorem overlays_of_run {decoding : Decoding Entity Unit} {source : Except Fault (Entries Reader)}
    (h : ∀ entity, decoding.run.run entity =
      entity.settled (source >>= Reader.decodeEntries hook entity.typeOf)) :
    Overlays hook decoding source := by
  have hdone : ∀ entity result, decoding.run.run entity = (.ok (), result) ↔
      ∃ entries, source = .ok entries ∧ Overlaid hook entries entity result := by
    intro entity result
    rw [h, settled_eq_ok_iff, exists_overlaid_iff]
  refine { kept := ?_, done_iff := hdone, unread := ?_, total := ?_, stopped := ?_, again := ?_ }
  · intro entity fault result hrun
    rw [h] at hrun
    exact eq_of_settled_eq_error hrun
  · rintro entity fault rfl
    exact h entity
  · rintro entity entries rfl hentries
    obtain ⟨data, hdata⟩ := Reader.exists_decodeEntries_iff.mpr hentries
    exact ⟨entity.overlay data, (h entity).trans (settled_eq_ok_iff.mpr ⟨data, hdata, rfl⟩)⟩
  · rintro entity entries before entry after fault rfl hlist hbefore hentry
    rw [h]
    show entity.settled (Reader.decodeEntries hook entity.typeOf entries) = _
    rw [Reader.decodeEntries_eq_error hlist hbefore hentry]
    rfl
  · intro entity result hrun
    obtain ⟨entries, hentries, hoverlaid⟩ := (hdone entity result).mp hrun
    exact (hdone result result).mpr ⟨entries, hentries, hoverlaid.again⟩

theorem decodedFields_eq (hook : Hook) (reader : Reader) (entity : Entity) :
    entity.decodedFields hook reader = sources reader >>= Reader.decodeEntries hook entity.typeOf := by
  rw [decodedFields, sources]
  cases reader.set? <;> rfl

theorem run_decode_eq (hook : Hook) (reader : Reader) (entity : Entity) :
    (decode hook reader).run.run entity =
      entity.settled (sources reader >>= Reader.decodeEntries hook entity.typeOf) := by
  rw [run_decode_eq_settled, decodedFields_eq]

theorem overlays_decode (hook : Hook) (reader : Reader) : Overlays hook (decode hook reader) (sources reader) :=
  overlays_of_run (run_decode_eq hook reader)

theorem Overlays.run_eq_ok_iff {decoding : Decoding Entity Unit} {source : Except Fault (Entries Reader)}
    (h : Overlays hook decoding source) :
    decoding.run.run entity = (.ok (), result) ↔
      ∃ data, source >>= Reader.decodeEntries hook entity.typeOf = .ok data ∧ entity.overlay data = result := by
  rw [h.done_iff, exists_overlaid_iff]

theorem Overlays.run_fieldless_eq_ok_iff {decoding : Decoding Entity Unit} {source : Except Fault (Entries Reader)}
    (h : Overlays hook decoding source) {types : SortedEntries DatumType} :
    decoding.run.run { types := types } = (.ok (), result) ↔
      source >>= Reader.decodeEntries hook (typeOf { types := types }) = .ok result.fields ∧ result.types = types := by
  rw [h.run_eq_ok_iff]
  constructor
  · rintro ⟨data, hdata, rfl⟩
    refine ⟨?_, rfl⟩
    rw [hdata, overlay, SortedEntries.overlay_empty]
  · rintro ⟨hdata, rfl⟩
    refine ⟨result.fields, hdata, ?_⟩
    rw [overlay, SortedEntries.overlay_empty]

theorem overlays_seq_iff {first second : Decoding Entity Unit} {source source' : Except Fault (Entries Reader)}
    (hfirst : Overlays hook first source) (hsecond : Overlays hook second source') :
    (first >>= fun _ => second).run.run entity = (.ok (), result) ↔
      ∃ earlier later : Entity, first.run.run { types := entity.types } = (.ok (), earlier) ∧
        second.run.run { types := entity.types } = (.ok (), later) ∧
        entity.overlay (earlier.fields.overlay later.fields) = result := by
  rw [Decoding.run_bind_eq_ok_iff]
  -- What the entries decode as depends on the declared types alone, which no decoding changes: so the second run
  -- decodes the same data after the first as it does into an entity with the types and no fields.
  constructor
  · rintro ⟨middle, hrun, hrun'⟩
    obtain ⟨data, hdata, rfl⟩ := hfirst.run_eq_ok_iff.mp hrun
    obtain ⟨data', hdata', rfl⟩ := hsecond.run_eq_ok_iff.mp hrun'
    refine ⟨⟨data, entity.types⟩, ⟨data', entity.types⟩, hfirst.run_fieldless_eq_ok_iff.mpr ⟨hdata, rfl⟩,
      hsecond.run_fieldless_eq_ok_iff.mpr ⟨hdata', rfl⟩, ?_⟩
    rw [overlay, overlay, overlay, SortedEntries.overlay_overlay]
  · rintro ⟨earlier, later, hrun, hrun', rfl⟩
    obtain ⟨hdata, -⟩ := hfirst.run_fieldless_eq_ok_iff.mp hrun
    obtain ⟨hdata', -⟩ := hsecond.run_fieldless_eq_ok_iff.mp hrun'
    refine ⟨entity.overlay earlier.fields, hfirst.run_eq_ok_iff.mpr ⟨_, hdata, rfl⟩,
      hsecond.run_eq_ok_iff.mpr ⟨_, hdata', ?_⟩⟩
    rw [overlay, overlay, overlay, SortedEntries.overlay_overlay]

end Entity

end AttributeCodec
