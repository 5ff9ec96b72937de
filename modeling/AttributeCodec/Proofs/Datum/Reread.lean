import AttributeCodec.Proofs.Datum.RoundTrip
import AttributeCodec.Proofs.Tree.Answers
import AttributeCodec.Proofs.Tree.Sorted

namespace AttributeCodec

def Datum.Dated (datum : Datum) : Prop :=
  ∀ instant, Datum.timestamp instant ∈ datum.nodes → 0 ≤ instant.date.year ∧ instant.date.year ≤ 9999

theorem Datum.Dated.item {items : List Datum} (h : (list items).Dated) : ∀ item ∈ items, item.Dated :=
  fun item hitem instant hinstant =>
    h instant (List.mem_cons_of_mem _ (mem_nodesOfItems.mpr ⟨item, hitem, hinstant⟩))

theorem Datum.Dated.entry {entries : SortedEntries Datum} (h : (map entries).Dated) :
    ∀ entry ∈ entries.toList, entry.2.Dated := fun entry hentry instant hinstant =>
  h instant (List.mem_cons_of_mem _ (mem_nodesOfEntries.mpr ⟨entry, hentry, hinstant⟩))

theorem Reader.forall_mem_of_decodeEntries {β : Type} {f : β → Reader} {hook : Hook} {type : String → DatumType}
    {entries : Entries β} {data : SortedEntries Datum} (h : decodeEntries hook type (entries.map f) = .ok data) :
    ∀ entry ∈ data.toList, ∃ source ∈ entries.toList, source.1 = entry.1 ∧
      (f source.2).decode hook (type entry.1) = .ok entry.2 := by
  obtain ⟨fields, hfields, rfl⟩ := decodeEntries_eq_ok_iff.mp h
  replace hfields : (entries.fields.map f).traverse (fun name => decode hook (type name)) = .ok fields := hfields
  rw [Fields.traverse_map] at hfields
  have hnodup : (fields.toList.map Prod.fst).Nodup := by
    rw [fields.map_fst_toList]
    exact entries.distinct
  have hall : ∀ entry ∈ fields.toList, ∃ source ∈ entries.toList, source.1 = entry.1 ∧
      (f source.2).decode hook (type entry.1) = .ok entry.2 :=
    forall_mem_of_forall₂ (Fields.traverse_eq_ok_iff.mp hfields) fun source hsource datum hdatum =>
      ⟨source, hsource, hdatum.1, hdatum.1 ▸ hdatum.2⟩
  exact fun entry hentry => hall entry ((SortedEntries.perm_toList_ofList hnodup).mem_iff.mp hentry)

def Tree.Rereads (tree : Tree) : Prop :=
  ∀ type datum, tree.reader.decode .timestamps type = .ok datum → datum.Dated →
    datum.reader.decode .timestamps type = .ok datum

namespace Tree

open Hook (onlyTimestamps_timestamps)

theorem decodeEntries_reader_eq_ok_iff {type : String → DatumType} {entries : Entries Tree}
    {data : SortedEntries Datum} :
    Reader.decodeEntries .timestamps type (entries.map reader) = .ok data ↔
      ∃ fields : Fields Datum entries.names,
        (entries.fields.traverse fun name tree => tree.reader.decode .timestamps (type name)) = .ok fields ∧
        SortedEntries.ofList fields.toList = data := by
  rw [Reader.decodeEntries_eq_ok_iff, Entries.map]
  simp only [Fields.traverse_map]

theorem normal_tree_of_decode_any {tree : Tree} {datum : Datum} (hnormal : tree.normal = tree)
    (h : tree.reader.decode .timestamps .any = .ok datum) : datum.tree.normal = tree.sorted := by
  induction tree generalizing datum with
  | null | bool | bytes =>
    cases h
    rfl
  | number n =>
    cases n <;>
      · cases h
        exact hnormal
  | string text =>
    cases h
    rw [Datum.tree, normal_ofText]
    exact hnormal
  | complex => cases hnormal
  | list items ih =>
    rw [reader_list, Reader.decode_any_ofItems onlyTimestamps_timestamps,
      Reader.decode_ofItems onlyTimestamps_timestamps, map_eq_ok, List.mapM_map] at h
    obtain ⟨data, hdata, rfl⟩ := h
    have hall := forall_normal_of_list hnormal
    have hsorted : items.map sorted = data.map (normal ∘ Datum.tree) :=
      map_eq_map_of_forall₂ (mapM_eq_ok_iff.mp hdata) fun item hitem datum hdatum =>
        (ih item hitem (hall item hitem) hdatum).symm
    rw [sorted_list, hsorted, Datum.tree_list, normal_list, List.map_map]
  | map entries ih =>
    rw [reader_map, Reader.decode_any_ofEntries onlyTimestamps_timestamps,
      Reader.decode_ofEntries onlyTimestamps_timestamps, map_eq_ok] at h
    obtain ⟨data, hdata, rfl⟩ := h
    obtain ⟨fields, hfields, rfl⟩ := decodeEntries_reader_eq_ok_iff.mp hdata
    have hall := forall_normal_of_map hnormal
    have hsorted : (entries.map sorted).toList =
        fields.toList.map fun entry => (entry.1, (normal ∘ Datum.tree) entry.2) := by
      rw [Entries.toList_map]
      refine map_eq_map_of_forall₂ (Fields.traverse_eq_ok_iff.mp hfields) fun entry hentry datum hdatum => ?_
      exact Prod.ext hdatum.1 (ih entry hentry (hall entry hentry) hdatum.2).symm
    rw [sorted_map, hsorted, ← SortedEntries.map_ofList, Datum.tree_map, normal_map, Entries.map_map]
    rfl
  | set type => cases h

theorem rereads_list {items : List Tree} (hall : ∀ item ∈ items, item.Rereads) {element : DatumType}
    {datum : Datum} (h : (list items).reader.decode .timestamps (.list element) = .ok datum)
    (hdated : datum.Dated) :
    ∃ data, datum = .list data ∧ datum.reader.decode .timestamps (.list element) = .ok datum := by
  rw [reader_list, Reader.decode_ofItems onlyTimestamps_timestamps, map_eq_ok, List.mapM_map] at h
  obtain ⟨data, hdata, rfl⟩ := h
  have hagain : ∀ datum ∈ data, datum.Dated → datum.reader.decode .timestamps element = .ok datum :=
    forall_mem_of_forall₂ (mapM_eq_ok_iff.mp hdata) fun item hitem => hall item hitem element
  have hitems : data.mapM (fun datum => datum.reader.decode .timestamps element) = .ok data := by
    rw [mapM_eq_ok_iff, List.forall₂_same]
    exact fun datum hdatum => hagain datum hdatum (hdated.item datum hdatum)
  refine ⟨data, rfl, ?_⟩
  rw [Datum.reader_list, Reader.decode_ofItems onlyTimestamps_timestamps, List.mapM_map]
  exact map_eq_ok.mpr ⟨data, hitems, rfl⟩

theorem decodeEntries_again {type : String → DatumType} {entries : Entries Tree}
    (hall : ∀ entry ∈ entries.toList, entry.2.Rereads) {data : SortedEntries Datum}
    (h : Reader.decodeEntries .timestamps type (entries.map reader) = .ok data)
    (hdated : ∀ entry ∈ data.toList, entry.2.Dated) :
    Reader.decodeEntries .timestamps type (Datum.entryReaders data) = .ok data := by
  have hagain : Reader.decodeEntries .timestamps type (Datum.entryReaders data) = .ok (data.map id) := by
    refine Datum.decodeEntries_entryReaders fun entry hentry => ?_
    obtain ⟨source, hsource, -, hdecode⟩ := Reader.forall_mem_of_decodeEntries h entry hentry
    exact hall source hsource (type entry.1) entry.2 hdecode (hdated entry hentry)
  rwa [SortedEntries.map_id] at hagain

theorem rereads_map {entries : Entries Tree} (hall : ∀ entry ∈ entries.toList, entry.2.Rereads)
    {element : DatumType} {datum : Datum}
    (h : (map entries).reader.decode .timestamps (.map element) = .ok datum) (hdated : datum.Dated) :
    ∃ data, datum = .map data ∧ datum.reader.decode .timestamps (.map element) = .ok datum := by
  rw [reader_map, Reader.decode_ofEntries onlyTimestamps_timestamps, map_eq_ok] at h
  obtain ⟨data, hdata, rfl⟩ := h
  refine ⟨data, rfl, ?_⟩
  rw [Datum.reader_map, Reader.decode_ofEntries onlyTimestamps_timestamps]
  exact map_eq_ok.mpr ⟨data, decodeEntries_again hall hdata hdated.entry, rfl⟩

theorem eq_or_exists_of_ite {β : Type} {isNull : Bool} {zero datum : Datum} {answer : Except Fault β}
    {f : β → Datum} (h : (if isNull = true then return zero else return f (← answer)) = .ok datum) :
    zero = datum ∨ ∃ value, answer = .ok value ∧ f value = datum := by
  cases isNull with
  | true => exact .inl (Except.ok.inj h)
  | false => exact .inr (by simpa using h)

theorem rereads_any {tree : Tree} (hnormal : tree.normal = tree)
    (hlist : ∀ items, tree = list items → ∀ item ∈ items, item.Rereads)
    (hmap : ∀ entries, tree = map entries → ∀ entry ∈ entries.toList, entry.2.Rereads) {datum : Datum}
    (h : tree.reader.decode .timestamps .any = .ok datum) (hdated : datum.Dated) :
    datum.reader.decode .timestamps .any = .ok datum := by
  cases tree with
  | list items =>
    rw [reader_list, Reader.decode_any_ofItems onlyTimestamps_timestamps, ← reader_list] at h
    obtain ⟨data, rfl, hagain⟩ := rereads_list (hlist items rfl) h hdated
    rwa [Datum.reader_list, Reader.decode_any_ofItems onlyTimestamps_timestamps, ← Datum.reader_list]
  | map entries =>
    rw [reader_map, Reader.decode_any_ofEntries onlyTimestamps_timestamps, ← reader_map] at h
    obtain ⟨data, rfl, hagain⟩ := rereads_map (hmap entries rfl) h hdated
    rwa [Datum.reader_map, Reader.decode_any_ofEntries onlyTimestamps_timestamps, ← Datum.reader_map]
  | _ =>
    rw [Datum.reader, normal_tree_of_decode_any hnormal h]
    exact h

theorem rereads_timestamp {tree : Tree} {datum : Datum}
    (h : tree.reader.decode .timestamps .timestamp = .ok datum) (hdated : datum.Dated) :
    datum.reader.decode .timestamps .timestamp = .ok datum := by
  obtain ⟨-, text, instant, hread, rfl⟩ := Reader.exists_instant_of_decode (.inr rfl) h
  exact Datum.decode_timestamp (Instant.leapInPlace_of_read hread) (hdated instant (Datum.mem_nodes _))

theorem rereads_of_children {tree : Tree} (hnormal : tree.normal = tree)
    (hlist : ∀ items, tree = list items → ∀ item ∈ items, item.Rereads)
    (hmap : ∀ entries, tree = map entries → ∀ entry ∈ entries.toList, entry.2.Rereads) : tree.Rereads := by
  intro type datum h hdated
  have htyped := h
  by_cases hany : type = .any
  · subst hany
    exact rereads_any hnormal hlist hmap h hdated
  by_cases htimestamp : type = .timestamp
  · subst htimestamp
    exact rereads_timestamp h hdated
  rw [Reader.decode_eq_readTyped onlyTimestamps_timestamps (Reader.set?_of_decode onlyTimestamps_timestamps h) hany
    htimestamp] at htyped
  cases type with
  | any => contradiction
  | timestamp => contradiction
  | bool =>
    obtain rfl | ⟨value, -, rfl⟩ := eq_or_exists_of_ite htyped
    · rfl
    · rfl
  | int =>
    obtain rfl | ⟨i, hi, rfl⟩ := eq_or_exists_of_ite htyped
    · exact Datum.decode_int Binary64.holds_zero
    · exact Datum.decode_int (holds_of_reader_int hnormal hi)
  | uint =>
    obtain rfl | ⟨u, hu, rfl⟩ := eq_or_exists_of_ite htyped
    · exact Datum.decode_uint Binary64.holds_zero
    · exact Datum.decode_uint (holds_of_reader_uint hnormal hu)
  | float =>
    obtain rfl | ⟨x, hx, rfl⟩ := eq_or_exists_of_ite htyped
    · rw [Datum.decode_float, Binary64.unsignedZero_zero]
    · rw [Datum.decode_float, unsignedZero_of_reader_float hnormal hx]
  | complex =>
    obtain rfl | ⟨⟨re, im⟩, hz, rfl⟩ :=
      eq_or_exists_of_ite (f := fun z : Binary64 × Binary64 => .complex z.1 z.2) htyped
    · rw [Datum.decode_complex, Binary64.unsignedZero_zero]
    · obtain ⟨hre, him⟩ := unsignedZero_of_reader_complex hnormal hz
      rw [Datum.decode_complex, hre, him]
  | bytes =>
    obtain rfl | ⟨value, -, rfl⟩ := eq_or_exists_of_ite htyped
    · exact Datum.decode_null (.inl rfl)
    · rfl
  | string =>
    obtain rfl | ⟨text, -, rfl⟩ := eq_or_exists_of_ite htyped
    · exact Datum.decode_string ""
    · exact Datum.decode_string text
  | list element =>
    obtain rfl | ⟨data, hdata, rfl⟩ := eq_or_exists_of_ite htyped
    · exact Datum.decode_null (.inr ⟨element, .inl rfl⟩)
    · obtain ⟨readers, hreaders, -⟩ := Reader.decodeList_eq_ok_iff.mp hdata
      obtain ⟨items, rfl⟩ := exists_of_reader_list hreaders
      obtain ⟨_, -, hagain⟩ := rereads_list (hlist items rfl) h hdated
      exact hagain
  | map element =>
    obtain rfl | ⟨data, hdata, rfl⟩ := eq_or_exists_of_ite htyped
    · exact Datum.decode_null (.inr ⟨element, .inr rfl⟩)
    · obtain ⟨readers, hreaders, -⟩ := Reader.decodeMap_eq_ok_iff.mp hdata
      obtain ⟨entries, rfl⟩ := exists_of_reader_map hreaders
      obtain ⟨_, -, hagain⟩ := rereads_map (hmap entries rfl) h hdated
      exact hagain

theorem rereads_of_normal {tree : Tree} (hnormal : tree.normal = tree) : tree.Rereads := by
  induction tree with
  | list items ih =>
    have hall := forall_normal_of_list hnormal
    apply rereads_of_children hnormal
    · rintro _ ⟨⟩
      exact fun item hitem => ih item hitem (hall item hitem)
    · exact fun _ h => nomatch h
  | map entries ih =>
    have hall := forall_normal_of_map hnormal
    apply rereads_of_children hnormal
    · exact fun _ h => nomatch h
    · rintro _ ⟨⟩
      exact fun entry hentry => ih entry hentry (hall entry hentry)
  | _ => exact rereads_of_children hnormal (fun _ h => nomatch h) fun _ h => nomatch h

end Tree

end AttributeCodec
