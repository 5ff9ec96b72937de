import AttributeCodec.Proofs.Attribute.Reordered
import AttributeCodec.Proofs.Reader.InPlace

namespace AttributeCodec

def Reader.withChildren (reader : Reader) (list : Except Fault (List Reader)) (map : Except Fault (Entries Reader)) :
    Reader :=
  { reader with list := list, map := map }

structure Hook.Shallow (hook : Hook) : Prop where
  decode : ∀ type (reader : Reader) list map, hook.decode type (reader.withChildren list map) = hook.decode type reader

theorem Hook.shallow_of_standard {hook : Hook} (h : hook = .none ∨ hook = .timestamps) : hook.Shallow := by
  rcases h with rfl | rfl
  · exact ⟨fun _ _ _ _ => rfl⟩
  · exact ⟨fun _ _ _ _ => rfl⟩

namespace Reader

inductive Reordered : Reader → Reader → Prop
  | same (reader : Reader) : Reordered reader reader
  | list {reader : Reader} {items others : List Reader} (list : reader.list = .ok items)
      (length : items.length = others.length)
      (item : ∀ (index : Nat) item other, items[index]? = some item → others[index]? = some other →
        Reordered item other) :
      Reordered reader (reader.withChildren (.ok others) reader.map)
  | map {reader : Reader} {entries others : Entries Reader} (map : reader.map = .ok entries)
      (names : ∀ name, name ∈ entries.names ↔ name ∈ others.names)
      (value : ∀ name item other, entries.get? name = some item → others.get? name = some other →
        Reordered item other) :
      Reordered reader (reader.withChildren reader.list (.ok others))

theorem Reordered.float_eq {reader other : Reader} (h : reader.Reordered other) : reader.float = other.float := by
  cases h <;> rfl

theorem complexOfItems_congr {items others : List Reader} (h : List.Forall₂ Reordered items others) :
    complexOfItems items = complexOfItems others := by
  cases h with
  | nil => rfl
  | cons hre h =>
    cases h with
    | nil => rfl
    | cons him h =>
      cases h with
      | nil => rw [complexOfItems, hre.float_eq, him.float_eq, complexOfItems]
      | cons => rfl

theorem Reordered.ofItems {items others : List Reader} (h : List.Forall₂ Reordered items others) :
    (Reader.ofItems items).Reordered (.ofItems others) := by
  have hothers : Reader.ofItems others =
      (Reader.ofItems items).withChildren (.ok others) (Reader.ofItems items).map := by
    rw [Reader.ofItems, Reader.ofItems, complexOfItems_congr h]
    rfl
  obtain ⟨hlength, hitem⟩ := getElem?_of_forall₂ h
  rw [hothers]
  exact .list rfl hlength hitem

theorem Reordered.ofEntries {entries others : Entries Reader} (h : entries.Alike Reordered others) :
    (Reader.ofEntries entries).Reordered (.ofEntries others) := by
  show Reordered _ ((Reader.ofEntries entries).withChildren (Reader.ofEntries entries).list (.ok others))
  exact .map rfl h.names h.value

structure Children.Agrees (children others : Children) : Prop where
  items : ∀ element, Agree Eq (children.items element) (others.items element)
  entries : ∀ element, Agree Eq (children.entries element) (others.entries element)

section Children

variable {hook : Hook} {children others : Children}

theorem agree_readTyped (h : children.Agrees others) (reader : Reader) (type : DatumType) :
    Agree Eq (reader.readTyped children type) (reader.readTyped others type) := by
  cases type with
  | list element =>
    rw [readTyped, readTyped]
    split
    · exact .ok rfl
    · exact (h.items element).bind fun _ _ hdata => .ok (congrArg Datum.list hdata)
  | map element =>
    rw [readTyped, readTyped]
    split
    · exact .ok rfl
    · exact (h.entries element).bind fun _ _ hdata => .ok (congrArg Datum.map hdata)
  | _ => exact .refl (fun _ => rfl) _

theorem readTyped_with (reader : Reader) (list map) (type : DatumType) :
    (reader.withChildren list map).readTyped children type = reader.readTyped children type := by
  cases type <;> rfl

variable (hshallow : hook.Shallow)

include hshallow

theorem agree_consult {general general' : Except Fault Datum} (h : Agree Eq general general') (reader : Reader)
    (list map) (type : DatumType) :
    Agree Eq (consult hook type reader general)
      (consult hook type (reader.withChildren list map) general') := by
  have hset : (reader.withChildren list map).set? = reader.set? := rfl
  rw [consult, consult, hshallow.decode, hset]
  cases reader.set? with
  | some set => exact .error _ _
  | none =>
    cases hook.decode type reader with
    | error fault => exact .error _ _
    | ok answer? =>
      cases answer? with
      | some datum => exact .ok rfl
      | none => exact h

theorem agree_readAny (h : children.Agrees others) (reader : Reader) (list map) :
    Agree Eq (reader.readAny hook children)
      ((reader.withChildren list map).readAny hook others) := by
  have hkind : (reader.withChildren list map).kind = reader.kind := rfl
  rw [readAny, readAny, hkind]
  -- Only a list and a map have children to read, and each consults the hook once more.
  cases reader.kind with
  | list =>
    refine agree_consult hshallow ?_ reader list map (.list .any)
    rw [readTyped_with]
    exact agree_readTyped h reader (.list .any)
  | map =>
    refine agree_consult hshallow ?_ reader list map (.map .any)
    rw [readTyped_with]
    exact agree_readTyped h reader (.map .any)
  | _ => exact .refl (fun _ => rfl) _

theorem agree_read (h : children.Agrees others) (reader : Reader) (list map) (type : DatumType) :
    Agree Eq (reader.read hook children type) ((reader.withChildren list map).read hook others type) := by
  rw [read, read]
  refine agree_consult hshallow ?_ reader list map type
  split
  · exact agree_readAny hshallow h reader list map
  · rw [readTyped_with]
    exact agree_readTyped h reader type

end Children

theorem agree_decodeEntries {hook : Hook} {type : String → DatumType} {entries others : Entries Reader}
    (h : entries.Alike (fun item other => ∀ type, Agree Eq (item.decode hook type) (other.decode hook type)) others) :
    Agree Eq (decodeEntries hook type entries) (decodeEntries hook type others) := by
  rw [decodeEntries_eq_map, decodeEntries_eq_map]
  refine (h.traverse fun name _ _ hitem => hitem (type name)).map fun data data' hdata => ?_
  exact SortedEntries.ofList_congr data.nodup_map_fst_toList hdata.perm

theorem Reordered.agree_decode {hook : Hook} (hshallow : hook.Shallow) {reader other : Reader}
    (h : reader.Reordered other) (type : DatumType) : Agree Eq (reader.decode hook type) (other.decode hook type) := by
  induction h generalizing type with
  | same reader => exact .refl (fun _ => rfl) _
  | @list reader items others hlist length _ ih =>
    rw [decode_eq, decode_eq]
    refine agree_read hshallow ⟨fun element => ?_, fun element => ?_⟩ reader (.ok others) reader.map type
    · show Agree Eq (decodeList hook element reader.list) (decodeItems hook element others)
      rw [hlist, decodeList, decodeItems_eq_mapM, decodeItems_eq_mapM]
      have hitems := forall₂_of_getElem? length fun index item other hitem hother =>
        ih index item other hitem hother element
      exact (Agree.mapM hitems).imp fun _ _ hdata => List.forall₂_eq_eq_eq ▸ hdata
    · exact .refl (fun _ => rfl) _
  | @map reader entries others hmap names _ ih =>
    rw [decode_eq, decode_eq]
    refine agree_read hshallow ⟨fun element => ?_, fun element => ?_⟩ reader reader.list (.ok others) type
    · exact .refl (fun _ => rfl) _
    · show Agree Eq (decodeMap hook element reader.map) (decodeEntries hook (fun _ => element) others)
      rw [hmap, decodeMap]
      exact agree_decodeEntries ⟨names, ih⟩

end Reader

theorem Attribute.View.Reordered.reader {view other : View} (h : view.Reordered other) :
    view.reader.Reordered other.reader := by
  induction h with
  | same view => exact .same view.reader
  | list length _ ih =>
    rw [reader_list, reader_list]
    refine .ofItems ?_
    rw [List.forall₂_map_left_iff, List.forall₂_map_right_iff]
    exact forall₂_of_getElem? length ih
  | map names _ ih =>
    rw [reader_map, reader_map]
    have halike : Entries.Alike (fun view other : View => view.reader.Reordered other.reader) _ _ := ⟨names, ih⟩
    exact .ofEntries (halike.map fun _ _ => id)

theorem Tree.Reordered.reader {tree other : Tree} (h : tree.Reordered other) :
    tree.reader.Reordered other.reader := by
  induction h with
  | same tree => exact .same tree.reader
  | list length _ ih =>
    rw [reader_list, reader_list]
    refine .ofItems ?_
    rw [List.forall₂_map_left_iff, List.forall₂_map_right_iff]
    exact forall₂_of_getElem? length ih
  | map names _ ih =>
    rw [reader_map, reader_map]
    have halike : Entries.Alike (fun tree other : Tree => tree.reader.Reordered other.reader) _ _ := ⟨names, ih⟩
    exact .ofEntries (halike.map fun _ _ => id)

end AttributeCodec
