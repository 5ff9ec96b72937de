import AttributeCodec.Codec
import AttributeCodec.Proofs.Datum.Encode
import AttributeCodec.Proofs.Instant.Text
import AttributeCodec.Proofs.Reader.InPlace
import AttributeCodec.Proofs.Reader.Readable
import AttributeCodec.Proofs.Tree.Normal

namespace AttributeCodec

def DatumType.isDefinite : DatumType → Bool
  | any => false
  | list element | map element => element.isDefinite
  | _ => true

def DatumType.Contains : DatumType → Datum → Prop
  | any, _ => True
  | bool, .bool _ | int, .int _ | uint, .uint _ | float, .float _ | complex, .complex .. => True
  | string, .string _ | timestamp, .timestamp _ | bytes, .bytes _ => True
  | bytes, .null | list _, .null | map _, .null => True
  | list element, .list items => ∀ item ∈ items, element.Contains item
  | map element, .map entries => ∀ entry ∈ entries.toList, element.Contains entry.2
  | _, _ => False

namespace Datum

def Exact : Datum → Prop
  | int i => Binary64.Holds i.toInt
  | uint u => Binary64.Holds u.toNat
  | timestamp instant => instant.LeapInPlace ∧ 0 ≤ instant.date.year ∧ instant.date.year ≤ 9999
  | _ => True

structure Fits (type : DatumType) (datum : Datum) : Prop where
  definite : type.isDefinite = true
  contains : type.Contains datum
  exact : ∀ node ∈ datum.nodes, node.Exact

mutual

def unsignedZeros : Datum → Datum
  | float x => float x.unsignedZero
  | complex re im => complex re.unsignedZero im.unsignedZero
  | list items => list (unsignedItems items)
  | map entries => map (unsignedEntries entries)
  | datum => datum

def unsignedItems : List Datum → List Datum
  | [] => []
  | item :: items => unsignedZeros item :: unsignedItems items

def unsignedEntries : SortedEntries Datum → SortedEntries Datum
  | ⟨names, ascending, fields⟩ => ⟨names, ascending, unsignedFields fields⟩

def unsignedFields {names : List String} : Fields Datum names → Fields Datum names
  | .nil => .nil
  | .cons name value rest => .cons name (unsignedZeros value) (unsignedFields rest)

end

theorem unsignedItems_eq_map (items : List Datum) : unsignedItems items = items.map unsignedZeros := by
  induction items with
  | nil => rfl
  | cons item items ih => rw [unsignedItems, ih, List.map_cons]

theorem unsignedFields_eq_map {names : List String} (fields : Fields Datum names) :
    unsignedFields fields = fields.map unsignedZeros := by
  induction fields with
  | nil => rfl
  | cons name value rest ih => rw [unsignedFields, ih, Fields.map]

theorem unsignedZeros_list (items : List Datum) :
    (list items).unsignedZeros = list (items.map unsignedZeros) := by
  rw [unsignedZeros, unsignedItems_eq_map]

theorem unsignedZeros_map (entries : SortedEntries Datum) :
    (map entries).unsignedZeros = map (entries.map unsignedZeros) := by
  rw [unsignedZeros, unsignedEntries, unsignedFields_eq_map, SortedEntries.map]

def reader (datum : Datum) : Reader := datum.tree.normal.reader

theorem reader_list (items : List Datum) : (list items).reader = .ofItems (items.map reader) := by
  rw [reader, tree_list, Tree.normal_list, Tree.reader_list, List.map_map, List.map_map]
  rfl

def entryReaders (entries : SortedEntries Datum) : Entries Reader :=
  ((entries.toEntries.map tree).map Tree.normal).map Tree.reader

theorem reader_map (entries : SortedEntries Datum) :
    (map entries).reader = .ofEntries (entryReaders entries) := by
  rw [reader, tree_map, Tree.normal_map, Tree.reader_map, entryReaders]

open Hook (onlyTimestamps_timestamps)

theorem decodeEntries_entryReaders {type : String → DatumType} {entries : SortedEntries Datum}
    {f : Datum → Datum}
    (hall : ∀ entry ∈ entries.toList, entry.2.reader.decode .timestamps (type entry.1) = .ok (f entry.2)) :
    Reader.decodeEntries .timestamps type (entryReaders entries) = .ok (entries.map f) := by
  refine Reader.decodeEntries_eq_ok_iff.mpr ⟨entries.fields.map f, ?_, ?_⟩
  · show Fields.traverse _ (((entries.fields.map tree).map Tree.normal).map Tree.reader) = _
    rw [Fields.traverse_map, Fields.traverse_map, Fields.traverse_map]
    exact Fields.traverse_eq_ok_map hall
  · exact SortedEntries.ofList_toList (entries.map f)

section Numbers

variable (n m : Number)

theorem decode_number_int :
    (Tree.number n).reader.decode .timestamps .int = return int (← n.toInt64) := by
  rw [Reader.decode_eq_readTyped onlyTimestamps_timestamps rfl (by decide) (by decide)]
  rfl

theorem decode_number_uint :
    (Tree.number n).reader.decode .timestamps .uint = return uint (← n.toUInt64) := by
  rw [Reader.decode_eq_readTyped onlyTimestamps_timestamps rfl (by decide) (by decide)]
  rfl

theorem decode_number_float :
    (Tree.number n).reader.decode .timestamps .float = .ok (float n.toBinary64) := by
  rw [Reader.decode_eq_readTyped onlyTimestamps_timestamps rfl (by decide) (by decide)]
  rfl

theorem decode_numbers_complex :
    (Tree.list [.number n, .number m]).reader.decode .timestamps .complex =
      .ok (complex n.toBinary64 m.toBinary64) := by
  rw [Reader.decode_eq_readTyped onlyTimestamps_timestamps rfl (by decide) (by decide)]
  rfl

end Numbers

theorem decode_int {i : Int64} (h : Binary64.Holds i.toInt) :
    (int i).reader.decode .timestamps .int = .ok (int i) := by
  have hnumber : (Number.int i).narrowed = .int i := Number.ofBinary64_ofInt_toInt i h
  rw [reader, tree, Tree.normal, hnumber, decode_number_int]
  rfl

theorem decode_uint {u : UInt64} (h : Binary64.Holds u.toNat) :
    (uint u).reader.decode .timestamps .uint = .ok (uint u) := by
  have hnumber : (Number.uint u).narrowed.toUInt64 = .ok u := Number.toUInt64_ofBinary64_ofInt u h
  rw [reader, tree, Tree.normal, decode_number_uint, hnumber]
  rfl

theorem decode_float (x : Binary64) :
    (float x).reader.decode .timestamps .float = .ok (float x.unsignedZero) := by
  have hnumber : (Number.float x).narrowed.toBinary64 = x.unsignedZero := Number.toBinary64_ofBinary64 x
  rw [reader, tree, Tree.normal, decode_number_float, hnumber]

theorem decode_complex (re im : Binary64) :
    (complex re im).reader.decode .timestamps .complex =
      .ok (complex re.unsignedZero im.unsignedZero) := by
  rw [reader, tree, Tree.normal, decode_numbers_complex, Number.toBinary64_ofBinary64,
    Number.toBinary64_ofBinary64]

theorem decode_string (text : String) :
    (string text).reader.decode .timestamps .string = .ok (string text) := by
  rw [reader, tree, Tree.normal_ofText, Tree.ofText]
  by_cases hempty : text.isEmpty = true
  · have htext : text = "" := by simpa using hempty
    rw [if_pos hempty, htext,
      Reader.decode_eq_readTyped onlyTimestamps_timestamps rfl (by decide) (by decide)]
    rfl
  · rw [if_neg hempty, Reader.decode_eq_readTyped onlyTimestamps_timestamps rfl (by decide) (by decide)]
    rfl

theorem tree_timestamp (instant : Instant) : (timestamp instant).tree = .string instant.text := by
  rw [tree, Tree.ofText, instant.isEmpty_text]
  rfl

theorem decode_tree_timestamp (instant : Instant) :
    (timestamp instant).tree.reader.decode .timestamps .timestamp = (Instant.read instant.text).map timestamp := by
  have hhook : Hook.timestamps.decode .timestamp (Tree.string instant.text).reader =
      return some (timestamp (← Instant.read instant.text)) := rfl
  have hset : (Tree.string instant.text).reader.set? = none := rfl
  rw [tree_timestamp, Reader.decode_eq, Reader.read, Reader.consult, hset, hhook]
  cases Instant.read instant.text <;> rfl

theorem reader_timestamp (instant : Instant) : (timestamp instant).reader = (timestamp instant).tree.reader := by
  have hnormal : (timestamp instant).tree.normal = (timestamp instant).tree := by
    rw [tree, Tree.normal_ofText]
  rw [reader, hnormal]

theorem decode_timestamp_carried {instant : Instant} (h : 0 ≤ instant.date.year ∧ instant.date.year ≤ 9999) :
    (timestamp instant).reader.decode .timestamps .timestamp = .ok (timestamp instant.carried) := by
  rw [reader_timestamp, decode_tree_timestamp, Instant.read_text h]
  rfl

theorem decode_timestamp {instant : Instant} (hplace : instant.LeapInPlace)
    (h : 0 ≤ instant.date.year ∧ instant.date.year ≤ 9999) :
    (timestamp instant).reader.decode .timestamps .timestamp = .ok (timestamp instant) := by
  rw [decode_timestamp_carried h, Instant.carried_of_leapInPlace hplace]

theorem decode_null {type : DatumType}
    (h : type = .bytes ∨ ∃ element, type = .list element ∨ type = .map element) :
    null.reader.decode .timestamps type = .ok null := by
  obtain rfl | ⟨element, rfl | rfl⟩ := h <;>
    rw [Reader.decode_eq_readTyped onlyTimestamps_timestamps rfl (by simp) (by simp)] <;> rfl

theorem decode_list {element : DatumType} {items : List Datum}
    (hall : ∀ item ∈ items, item.reader.decode .timestamps element = .ok item.unsignedZeros) :
    (list items).reader.decode .timestamps (.list element) = .ok (list items).unsignedZeros := by
  have hitems : (items.map reader).mapM (Reader.decode .timestamps element) =
      .ok (items.map unsignedZeros) := by
    rw [List.mapM_map]
    exact mapM_eq_ok_map hall
  rw [reader_list, Reader.decode_ofItems onlyTimestamps_timestamps, hitems, unsignedZeros_list]
  rfl

theorem decode_map {element : DatumType} {entries : SortedEntries Datum}
    (hall : ∀ entry ∈ entries.toList,
      entry.2.reader.decode .timestamps element = .ok entry.2.unsignedZeros) :
    (map entries).reader.decode .timestamps (.map element) = .ok (map entries).unsignedZeros := by
  rw [reader_map, Reader.decode_ofEntries onlyTimestamps_timestamps, decodeEntries_entryReaders hall,
    unsignedZeros_map]
  rfl

theorem Fits.item {element : DatumType} {items : List Datum} (h : Fits (.list element) (list items)) :
    ∀ item ∈ items, Fits element item := fun item hitem =>
  ⟨h.definite, h.contains item hitem, forall_nodes_of_item h.exact item hitem⟩

theorem Fits.entry {element : DatumType} {entries : SortedEntries Datum}
    (h : Fits (.map element) (map entries)) : ∀ entry ∈ entries.toList, Fits element entry.2 :=
  fun entry hentry => ⟨h.definite, h.contains entry hentry, forall_nodes_of_entry h.exact entry hentry⟩

theorem decode_reader {type : DatumType} {datum : Datum} (h : Fits type datum) :
    datum.reader.decode .timestamps type = .ok datum.unsignedZeros := by
  -- The type has fewer shapes than the datum: it decides which constructors are left.
  have hcontains := h.contains
  have hexact : datum.Exact := h.exact datum datum.mem_nodes
  induction type generalizing datum with
  | any => exact absurd h.definite (by decide)
  | bool =>
    cases datum with
    | bool value => rfl
    | _ => exact hcontains.elim
  | int =>
    cases datum with
    | int i => exact decode_int hexact
    | _ => exact hcontains.elim
  | uint =>
    cases datum with
    | uint u => exact decode_uint hexact
    | _ => exact hcontains.elim
  | float =>
    cases datum with
    | float x => exact decode_float x
    | _ => exact hcontains.elim
  | complex =>
    cases datum with
    | complex re im => exact decode_complex re im
    | _ => exact hcontains.elim
  | bytes =>
    cases datum with
    | bytes value => rfl
    | null => exact decode_null (.inl rfl)
    | _ => exact hcontains.elim
  | string =>
    cases datum with
    | string text => exact decode_string text
    | _ => exact hcontains.elim
  | timestamp =>
    cases datum with
    | timestamp instant => exact decode_timestamp hexact.1 hexact.2
    | _ => exact hcontains.elim
  | list element ih =>
    cases datum with
    | list items =>
      refine decode_list fun item hitem => ?_
      have hitem := h.item item hitem
      exact ih hitem hitem.contains (hitem.exact item item.mem_nodes)
    | null => exact decode_null (.inr ⟨element, .inl rfl⟩)
    | _ => exact hcontains.elim
  | map element ih =>
    cases datum with
    | map entries =>
      refine decode_map fun entry hentry => ?_
      have hentry := h.entry entry hentry
      exact ih hentry hentry.contains (hentry.exact entry.2 entry.2.mem_nodes)
    | null => exact decode_null (.inr ⟨element, .inr rfl⟩)
    | _ => exact hcontains.elim

end Datum

end AttributeCodec
