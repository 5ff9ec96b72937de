import AttributeCodec.Datum.Decode
import AttributeCodec.Proofs.Traversal

namespace AttributeCodec

structure Hook.OnlyTimestamps (hook : Hook) : Prop where
  declines {type : DatumType} (reader : Reader) :
    type ≠ .timestamp → hook.decode type reader = .ok Option.none
  text {type : DatumType} {reader : Reader} {datum : Datum} :
    hook.decode type reader = .ok (some datum) → ∃ text, reader.string = .ok text

namespace Hook

theorem onlyTimestamps_none : Hook.none.OnlyTimestamps where
  declines _ _ := rfl
  text h := by simp [Hook.none] at h

theorem onlyTimestamps_timestamps : Hook.timestamps.OnlyTimestamps where
  declines reader htype := by
    show decodeTimestamp _ reader = _
    rw [decodeTimestamp, if_neg htype]
    rfl
  text {type reader datum} h := by
    replace h : decodeTimestamp type reader = .ok (some datum) := h
    unfold decodeTimestamp at h
    split at h
    · split at h
      · exact ⟨_, by assumption⟩
      · simp at h
    · simp at h

theorem onlyTimestamps_of_standard {hook : Hook} (h : hook = .none ∨ hook = .timestamps) :
    hook.OnlyTimestamps := by
  rcases h with rfl | rfl
  · exact onlyTimestamps_none
  · exact onlyTimestamps_timestamps

end Hook

namespace Reader

def children (hook : Hook) (reader : Reader) : Children where
  items element := decodeList hook element reader.list
  entries element := decodeMap hook element reader.map

theorem decode_eq (hook : Hook) (type : DatumType) (reader : Reader) :
    reader.decode hook type = reader.read hook (reader.children hook) type := by
  cases reader
  rfl

theorem consult_of_ne {hook : Hook} (hhook : hook.OnlyTimestamps) {reader : Reader} {type : DatumType}
    (hset : reader.set? = none) (htimestamp : type ≠ .timestamp) (general : Except Fault Datum) :
    reader.consult hook type general = general := by
  rw [consult, hset]
  simp only [hhook.declines reader htimestamp]
  rfl

theorem decode_eq_readTyped {hook : Hook} (hhook : hook.OnlyTimestamps) {reader : Reader} {type : DatumType}
    (hset : reader.set? = none) (hany : type ≠ .any) (htimestamp : type ≠ .timestamp) :
    reader.decode hook type = reader.readTyped (reader.children hook) type := by
  rw [decode_eq, read, if_neg hany, consult_of_ne hhook hset htimestamp]

theorem decode_eq_readAny {hook : Hook} (hhook : hook.OnlyTimestamps) {reader : Reader}
    (hset : reader.set? = none) :
    reader.decode hook .any = reader.readAny hook (reader.children hook) := by
  rw [decode_eq, read, if_pos rfl, consult_of_ne hhook hset (by decide)]

theorem consult_of_answer {hook : Hook} {reader : Reader} {type : DatumType} {general : Except Fault Datum}
    {datum : Datum} (hset : reader.set? = none) (h : hook.decode type reader = .ok (some datum)) :
    reader.consult hook type general = .ok datum := by
  rw [consult, hset]
  simp only [h]
  rfl

theorem decodeItems_eq_mapM (hook : Hook) (element : DatumType) (items : List Reader) :
    decodeItems hook element items = items.mapM (decode hook element) := by
  induction items with
  | nil => rfl
  | cons item items ih => rw [decodeItems, ih, List.mapM_cons]

theorem decodeFields_eq_traverse (hook : Hook) (type : String → DatumType) {names : List String}
    (fields : Fields Reader names) :
    decodeFields hook type fields = fields.traverse fun name => decode hook (type name) := by
  induction fields with
  | nil => rfl
  | cons name item rest ih => rw [decodeFields, ih, Fields.traverse]

theorem decodeEntries_eq_map (hook : Hook) (type : String → DatumType) (entries : Entries Reader) :
    decodeEntries hook type entries =
      (fun data => SortedEntries.ofList data.toList) <$>
        entries.traverse fun name => decode hook (type name) := by
  rw [decodeEntries, decodeFields_eq_traverse, Entries.traverse]
  cases entries.fields.traverse fun name => decode hook (type name) <;> rfl

theorem decodeEntries_eq_ok_iff {hook : Hook} {type : String → DatumType} {entries : Entries Reader}
    {data : SortedEntries Datum} :
    decodeEntries hook type entries = .ok data ↔
      ∃ fields, entries.fields.traverse (fun name => decode hook (type name)) = .ok fields ∧
        SortedEntries.ofList fields.toList = data := by
  rw [decodeEntries, decodeFields_eq_traverse]
  simp only [bind_eq_ok, pure_eq_ok]

theorem decodeList_eq_ok_iff {hook : Hook} {element : DatumType} {list : Except Fault (List Reader)}
    {data : List Datum} :
    decodeList hook element list = .ok data ↔
      ∃ items, list = .ok items ∧ items.mapM (decode hook element) = .ok data := by
  cases list with
  | ok items => simp [decodeList, decodeItems_eq_mapM]
  | error fault => simp [decodeList]

theorem decodeMap_eq_ok_iff {hook : Hook} {element : DatumType} {map : Except Fault (Entries Reader)}
    {data : SortedEntries Datum} :
    decodeMap hook element map = .ok data ↔
      ∃ entries, map = .ok entries ∧ decodeEntries hook (fun _ => element) entries = .ok data := by
  cases map with
  | ok entries => simp [decodeMap]
  | error fault => simp [decodeMap]

section Composite

variable {hook : Hook} (hhook : hook.OnlyTimestamps)

include hhook

theorem decode_ofItems (items : List Reader) (element : DatumType) :
    (ofItems items).decode hook (.list element) = Datum.list <$> items.mapM (decode hook element) := by
  rw [decode_eq_readTyped hhook rfl (by simp) (by simp), ← decodeItems_eq_mapM, ← bind_pure_comp]
  rfl

theorem decode_ofEntries (entries : Entries Reader) (element : DatumType) :
    (ofEntries entries).decode hook (.map element) =
      Datum.map <$> decodeEntries hook (fun _ => element) entries := by
  rw [decode_eq_readTyped hhook rfl (by simp) (by simp), ← bind_pure_comp]
  rfl

theorem decode_any_ofItems (items : List Reader) :
    (ofItems items).decode hook .any = (ofItems items).decode hook (.list .any) := by
  rw [decode_eq_readAny hhook rfl, decode_eq, read, if_neg (by simp)]
  rfl

theorem decode_any_ofEntries (entries : Entries Reader) :
    (ofEntries entries).decode hook .any = (ofEntries entries).decode hook (.map .any) := by
  rw [decode_eq_readAny hhook rfl, decode_eq, read, if_neg (by simp)]
  rfl

end Composite

def Readable (hook : Hook) (reader : Reader) : Prop := ∃ type datum, reader.decode hook type = .ok datum

variable {hook : Hook} {reader : Reader}

inductive Answered (hook : Hook) (reader : Reader) : Prop
  | null (h : reader.kind = .null ∨ reader.isNull = true)
  | bool {value : Bool} (h : reader.bool = .ok value)
  | int {value : Int64} (h : reader.int = .ok value)
  | uint {value : UInt64} (h : reader.uint = .ok value)
  | float {value : Binary64} (h : reader.float = .ok value)
  | complex {re im : Binary64} (h : reader.complex = .ok (re, im))
  | bytes {value : List UInt8} (h : reader.bytes = .ok value)
  | string {text : String} (h : reader.string = .ok text)
  | list {items : List Reader} (h : reader.list = .ok items)
      (readable : ∀ item ∈ items, item.Readable hook)
  | map {entries : Entries Reader} (h : reader.map = .ok entries)
      (readable : ∀ entry ∈ entries.toList, entry.2.Readable hook)

theorem answered_of_decodeList {element : DatumType} {data : List Datum}
    (h : decodeList hook element reader.list = .ok data) : reader.Answered hook := by
  obtain ⟨items, hlist, hitems⟩ := decodeList_eq_ok_iff.mp h
  refine .list hlist fun item hitem => ⟨element, ?_⟩
  exact exists_mapM_iff.mp ⟨data, hitems⟩ item hitem

theorem answered_of_decodeMap {element : DatumType} {data : SortedEntries Datum}
    (h : decodeMap hook element reader.map = .ok data) : reader.Answered hook := by
  obtain ⟨entries, hmap, hentries⟩ := decodeMap_eq_ok_iff.mp h
  obtain ⟨fields, hfields, -⟩ := decodeEntries_eq_ok_iff.mp hentries
  refine .map hmap fun entry hentry => ⟨element, ?_⟩
  exact Fields.exists_traverse_iff.mp ⟨fields, hfields⟩ entry hentry

theorem answered_of_readTyped {type : DatumType} {datum : Datum}
    (h : reader.readTyped (reader.children hook) type = .ok datum) : reader.Answered hook := by
  by_cases hnull : reader.isNull = true
  · exact .null (.inr hnull)
  · cases type <;> simp only [readTyped, hnull, Bool.false_eq_true, if_false, bind_eq_ok, throw_ne_ok] at h
    case bool => obtain ⟨_, hvalue, -⟩ := h; exact .bool hvalue
    case int => obtain ⟨_, hvalue, -⟩ := h; exact .int hvalue
    case uint => obtain ⟨_, hvalue, -⟩ := h; exact .uint hvalue
    case float => obtain ⟨_, hvalue, -⟩ := h; exact .float hvalue
    case complex => obtain ⟨_, hvalue, -⟩ := h; exact .complex hvalue
    case bytes => obtain ⟨_, hvalue, -⟩ := h; exact .bytes hvalue
    case string => obtain ⟨_, hvalue, -⟩ := h; exact .string hvalue
    case list => obtain ⟨_, hitems, -⟩ := h; exact answered_of_decodeList hitems
    case map => obtain ⟨_, hentries, -⟩ := h; exact answered_of_decodeMap hentries

theorem of_consult (hhook : hook.OnlyTimestamps) {type : DatumType} {general : Except Fault Datum}
    {datum : Datum} (h : reader.consult hook type general = .ok datum) :
    reader.set? = none ∧ ((∃ text, reader.string = .ok text) ∨ general = .ok datum) := by
  unfold consult at h
  split at h
  · simp at h
  · next hset =>
    obtain ⟨answer, hanswer, h⟩ := bind_eq_ok.mp h
    refine ⟨hset, ?_⟩
    cases answer with
    | some datum' => exact .inl (hhook.text hanswer)
    | none => exact .inr h

theorem set?_of_decode (hhook : hook.OnlyTimestamps) {type : DatumType} {datum : Datum}
    (h : reader.decode hook type = .ok datum) : reader.set? = none := by
  rw [decode_eq, read] at h
  exact (of_consult hhook h).1

theorem exists_instant_of_decode (hhook : hook = .none ∨ hook = .timestamps)
    {datum : Datum} (h : reader.decode hook .timestamp = .ok datum) :
    hook = .timestamps ∧ ∃ text instant, Instant.read text = .ok instant ∧ datum = .timestamp instant := by
  have hset := set?_of_decode (Hook.onlyTimestamps_of_standard hhook) h
  rw [decode_eq, read, consult, hset] at h
  obtain ⟨answer, hanswer, hgeneral⟩ := bind_eq_ok.mp h
  rcases hhook with rfl | rfl
  · cases hanswer
    cases hgeneral
  · refine ⟨rfl, ?_⟩
    replace hanswer : Hook.decodeTimestamp .timestamp reader = .ok answer := hanswer
    rw [Hook.decodeTimestamp, if_pos rfl] at hanswer
    cases hstring : reader.string with
    | error fault =>
      rw [hstring] at hanswer
      cases hanswer
    | ok text =>
      rw [hstring] at hanswer
      obtain ⟨instant, hread, hinstant⟩ := bind_eq_ok.mp hanswer
      cases hinstant
      cases hgeneral
      exact ⟨text, instant, hread, rfl⟩

theorem answered_of_consult (hhook : hook.OnlyTimestamps) {type other : DatumType} {datum : Datum}
    (h : reader.consult hook type (reader.readTyped (reader.children hook) other) = .ok datum) :
    reader.Answered hook := by
  rcases (of_consult hhook h).2 with ⟨text, htext⟩ | hgeneral
  · exact .string htext
  · exact answered_of_readTyped hgeneral

theorem answered_of_readAny (hhook : hook.OnlyTimestamps) {datum : Datum}
    (h : reader.readAny hook (reader.children hook) = .ok datum) : reader.Answered hook := by
  unfold readAny at h
  split at h
  · next hkind => exact .null (.inl hkind)
  · obtain ⟨_, hvalue, -⟩ := bind_eq_ok.mp h; exact .bool hvalue
  · obtain ⟨_, hvalue, -⟩ := bind_eq_ok.mp h; exact .int hvalue
  · obtain ⟨_, hvalue, -⟩ := bind_eq_ok.mp h; exact .uint hvalue
  · obtain ⟨_, hvalue, -⟩ := bind_eq_ok.mp h; exact .float hvalue
  · obtain ⟨_, hvalue, -⟩ := bind_eq_ok.mp h; exact .bytes hvalue
  · obtain ⟨_, hvalue, -⟩ := bind_eq_ok.mp h; exact .string hvalue
  · obtain ⟨_, hvalue, -⟩ := bind_eq_ok.mp h; exact .complex hvalue
  · exact answered_of_consult hhook h
  · exact answered_of_consult hhook h
  · simp at h

theorem Readable.answered (hhook : hook.OnlyTimestamps) (h : reader.Readable hook) :
    reader.set? = none ∧ reader.Answered hook := by
  obtain ⟨type, datum, h⟩ := h
  rw [decode_eq, read] at h
  obtain ⟨hset, ⟨text, htext⟩ | hgeneral⟩ := of_consult hhook h
  · exact ⟨hset, .string htext⟩
  · refine ⟨hset, ?_⟩
    split at hgeneral
    · exact answered_of_readAny hhook hgeneral
    · exact answered_of_readTyped hgeneral

end Reader

end AttributeCodec
