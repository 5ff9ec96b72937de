import AttributeCodec.Proofs.Attribute.Json.Values
import AttributeCodec.Proofs.Attribute.Tagged

namespace AttributeCodec.Attribute.Tagged

theorem writeItems_eq_map (items : List Tagged) : writeItems items = items.map write := by
  induction items with
  | nil => rfl
  | cons item items ih => rw [writeItems, ih, List.map_cons]

theorem writeFields_eq_map {names : List String} (fields : Fields Tagged names) :
    writeFields fields = fields.map write := by
  induction fields with
  | nil => rfl
  | cons name value rest ih => rw [writeFields, ih, Fields.map]

theorem write_list (items : List Tagged) :
    (list items).write = written .list (.array (items.map write)) := by
  rw [write, writeItems_eq_map]

theorem write_map (entries : Entries Tagged) :
    (map entries).write = written .map (.object (entries.map write)) := by
  rw [write, writeEntries, writeFields_eq_map, Entries.map]

theorem readItems_eq_mapM (items : List Json) : readItems items = items.mapM read := by
  induction items with
  | nil => rfl
  | cons item items ih => rw [readItems, ih, List.mapM_cons]

theorem readFields_eq_traverse {names : List String} (fields : Fields Json names) :
    readFields fields = fields.traverse fun _ => read := by
  induction fields with
  | nil => rfl
  | cons name value rest ih => rw [readFields, ih, Fields.traverse]

theorem readEntries_eq_traverse (entries : Entries Json) :
    readEntries entries = entries.traverse fun _ => read := by
  rw [readEntries, readFields_eq_traverse, Entries.traverse]

theorem read_eq_ok_iff_readMember {json : Json} {attr : Tagged} :
    read json = .ok attr ↔ ∃ member value, json = written member value ∧ readMember member value = .ok attr := by
  constructor
  · intro h
    cases json with
    | object members =>
      obtain ⟨names, distinct, fields⟩ := members
      rw [read, readEntriesOf] at h
      unfold readOnly at h
      split at h
      · split at h
        · next member hmember =>
          obtain rfl := Member.ofName?_eq_some_iff.mp hmember
          exact ⟨member, _, rfl, h⟩
        · simp at h
      · simp at h
    | _ => simp [read] at h
  · rintro ⟨member, value, rfl, h⟩
    have hmember : Member.ofName? member.name = some member := Member.ofName?_eq_some_iff.mpr rfl
    rw [written, read, Entries.singleton, readEntriesOf, readOnly, hmember]
    exact h

theorem readMember_eq_readLeaf {member : Member} (hlist : member ≠ .list) (hmap : member ≠ .map)
    (value : Json) : readMember member value = readLeaf member value := by
  rw [readMember]
  · exact fun _ h _ => hlist h
  · exact fun _ h _ => hmap h

theorem readMember_list_eq_ok_iff {value : Json} {attr : Tagged} :
    readMember .list value = .ok attr ↔
      ∃ values items, value = .array values ∧ values.mapM read = .ok items ∧ list items = attr := by
  cases value with
  | array values => simp [readMember, readItems_eq_mapM]
  | _ => simp [readMember, readLeaf]

theorem readMember_map_eq_ok_iff {value : Json} {attr : Tagged} :
    readMember .map value = .ok attr ↔
      ∃ values entries, value = .object values ∧ values.traverse (fun _ => read) = .ok entries ∧
        map entries = attr := by
  cases value with
  | object values => simp [readMember, readEntries_eq_traverse]
  | _ => simp [readMember, readLeaf]

variable {attr : Tagged}

theorem written_of_readLeaf {member : Member} {value : Json} (h : readLeaf member value = .ok attr) :
    written member value = attr.write := by
  cases member with
  | list => simp [readLeaf] at h
  | map => simp [readLeaf] at h
  | _ =>
    simp only [readLeaf, bind_eq_ok, pure_eq_ok, readBinary_eq_ok_iff, readBool_eq_ok_iff,
      readBinaries_eq_ok_iff, readText_eq_ok_iff, readTexts_eq_ok_iff] at h
    obtain ⟨_, rfl, rfl⟩ := h
    rw [write]

theorem written_of_readMember {member : Member} {value : Json} (h : readMember member value = .ok attr)
    (ih : ∀ child ∈ attr.children, ∀ json, read json = .ok child ↔ json = child.write) :
    written member value = attr.write := by
  by_cases hlist : member = .list
  · subst hlist
    obtain ⟨values, items, rfl, hitems, rfl⟩ := readMember_list_eq_ok_iff.mp h
    obtain rfl : values = items.map write := (mapM_eq_ok_iff_eq_map ih).mp hitems
    rw [write_list]
  · by_cases hmap : member = .map
    · subst hmap
      obtain ⟨values, entries, rfl, hentries, rfl⟩ := readMember_map_eq_ok_iff.mp h
      obtain rfl : values = entries.map write :=
        (Entries.traverse_eq_ok_iff_eq_map (List.forall_mem_map.mp ih)).mp hentries
      rw [write_map]
    · rw [readMember_eq_readLeaf hlist hmap] at h
      exact written_of_readLeaf h

theorem exists_readMember (ih : ∀ child ∈ attr.children, ∀ json, read json = .ok child ↔ json = child.write) :
    ∃ member value, attr.write = written member value ∧ readMember member value = .ok attr := by
  cases attr with
  | list items =>
    refine ⟨.list, _, write_list items, readMember_list_eq_ok_iff.mpr ⟨_, items, rfl, ?_, rfl⟩⟩
    exact (mapM_eq_ok_iff_eq_map ih).mpr rfl
  | map entries =>
    refine ⟨.map, _, write_map entries, readMember_map_eq_ok_iff.mpr ⟨_, entries, rfl, ?_, rfl⟩⟩
    exact (Entries.traverse_eq_ok_iff_eq_map (List.forall_mem_map.mp ih)).mpr rfl
  | _ =>
    rw [write]
    refine ⟨_, _, rfl, ?_⟩
    rw [readMember_eq_readLeaf (by decide) (by decide)]
    simp only [readLeaf, bind_eq_ok, pure_eq_ok, readBinary_eq_ok_iff, readBool_eq_ok_iff,
      readBinaries_eq_ok_iff, readText_eq_ok_iff, readTexts_eq_ok_iff]
    exact ⟨_, rfl, rfl⟩

theorem read_eq_ok_iff {json : Json} : read json = .ok attr ↔ json = attr.write := by
  induction attr generalizing json with
  | step attr ih =>
    have ih : ∀ child ∈ attr.children, ∀ json, read json = .ok child ↔ json = child.write :=
      fun child hchild json => ih child hchild
    rw [read_eq_ok_iff_readMember]
    constructor
    · rintro ⟨member, value, rfl, h⟩
      exact written_of_readMember h ih
    · rintro rfl
      exact exists_readMember ih

end AttributeCodec.Attribute.Tagged
