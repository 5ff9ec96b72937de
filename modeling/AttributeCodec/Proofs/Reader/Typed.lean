import AttributeCodec.Proofs.Datum.Reread
import AttributeCodec.Proofs.Entity.Overlay
import AttributeCodec.Proofs.Reader.SingleFault

/-! A datum that is decoded is of the type and in the shape of what was read. -/

namespace AttributeCodec

open Attribute (Form)
open AttributeCodec.Tree (eq_or_exists_of_ite)

def Datum.Untyped : Datum → Prop
  | .timestamp _ | .complex .. => False
  | .string text => text ≠ ""
  | _ => True

namespace DatumType

def item? : DatumType → Option DatumType
  | any => some any
  | list element => some element
  | _ => none

def entry? : DatumType → Option DatumType
  | any => some any
  | map element => some element
  | _ => none

def isNullable : DatumType → Bool
  | bytes | list _ | map _ => true
  | _ => false

def Yields : DatumType → Datum → Prop
  | any, datum => ∀ node ∈ datum.nodes, node.Untyped
  | bool, .bool _ | int, .int _ | uint, .uint _ | float, .float _ | complex, .complex .. => True
  | string, .string _ | timestamp, .timestamp _ | bytes, .bytes _ => True
  | bytes, .null | list _, .null | map _, .null => True
  | list element, .list items => ∀ item ∈ items, element.Yields item
  | map element, .map entries => ∀ entry ∈ entries.toList, element.Yields entry.2
  | _, _ => False

end DatumType

namespace Datum

def isScalar : Datum → Bool
  | list _ | map _ => false
  | _ => true

theorem yields_any_of_scalar {datum : Datum} (hscalar : datum.isScalar = true) (h : datum.Untyped) :
    DatumType.any.Yields datum := by
  have hnodes : datum.nodes = [datum] := by
    cases datum with
    | list | map => cases hscalar
    | _ => rfl
  intro node hnode
  rw [hnodes] at hnode
  rwa [List.mem_singleton.mp hnode]

theorem yields_any_list {items : List Datum} (h : ∀ item ∈ items, DatumType.any.Yields item) :
    DatumType.any.Yields (list items) := by
  intro node hnode
  rcases List.mem_cons.mp hnode with rfl | hnode
  · trivial
  · obtain ⟨item, hitem, hnode⟩ := mem_nodesOfItems.mp hnode
    exact h item hitem node hnode

theorem yields_any_map {entries : SortedEntries Datum} (h : ∀ entry ∈ entries.toList, DatumType.any.Yields entry.2) :
    DatumType.any.Yields (map entries) := by
  intro node hnode
  rcases List.mem_cons.mp hnode with rfl | hnode
  · trivial
  · obtain ⟨entry, hentry, hnode⟩ := mem_nodesOfEntries.mp hnode
    exact h entry hentry node hnode

end Datum

theorem Hook.none_ne_timestamps : Hook.none ≠ Hook.timestamps := by
  intro h
  have hdecode := congrArg (fun hook => hook.decode .timestamp .null) h
  cases hdecode

namespace Reader

variable {hook : Hook} {reader : Reader} {type : DatumType} {datum : Datum}

theorem eq_null_iff_of_ite {β : Type} {isNull : Bool} {answer : Except Fault β} {f : β → Datum}
    (hf : ∀ value, f value ≠ .null) (h : (if isNull = true then return .null else return f (← answer)) = .ok datum) :
    datum = .null ↔ isNull = true := by
  cases isNull with
  | true =>
    cases h
    simp
  | false =>
    obtain ⟨value, -, rfl⟩ : ∃ value, answer = .ok value ∧ f value = datum := by simpa using h
    simp [hf value]

theorem yields_of_readTyped {children : Children}
    (hitems : ∀ element data, children.items element = .ok data → ∀ item ∈ data, element.Yields item)
    (hentries : ∀ element data, children.entries element = .ok data → ∀ entry ∈ data.toList, element.Yields entry.2)
    (h : reader.readTyped children type = .ok datum) : type.Yields datum := by
  cases type with
  | any => cases h
  | timestamp => cases h
  | complex =>
    obtain rfl | ⟨z, -, rfl⟩ :=
      eq_or_exists_of_ite (f := fun z : Binary64 × Binary64 => .complex z.1 z.2) h <;> trivial
  | list element =>
    obtain rfl | ⟨data, hdata, rfl⟩ := eq_or_exists_of_ite h
    · trivial
    · exact hitems element data hdata
  | map element =>
    obtain rfl | ⟨data, hdata, rfl⟩ := eq_or_exists_of_ite h
    · trivial
    · exact hentries element data hdata
  | _ => obtain rfl | ⟨_, -, rfl⟩ := eq_or_exists_of_ite h <;> trivial

end Reader

namespace Attribute.View

variable {hook : Hook} {view : View} {type : DatumType} {datum : Datum}

theorem isNull_reader_iff : view.reader.isNull = true ↔ view = null ∨ view = string "" := by
  cases view with
  | string text =>
    rw [reader]
    split <;> simp_all [Reader.null, Reader.ofKind, Reader.refusing]
  | _ =>
    simp [reader, numberReader, Reader.null, Reader.ofKind, Reader.refusing, Reader.ofItems, Reader.ofEntries,
      Reader.ofSet]

theorem exists_of_reader_list {readers : List Reader} (h : view.reader.list = .ok readers) :
    ∃ items, view = list items ∧ readers = items.map reader := by
  cases view with
  | list items =>
    rw [reader_list] at h
    cases h
    exact ⟨items, rfl, rfl⟩
  | string text =>
    rw [reader] at h
    split at h <;> cases h
  | _ => cases h

theorem exists_of_reader_map {readers : Entries Reader} (h : view.reader.map = .ok readers) :
    ∃ entries, view = map entries ∧ readers = entries.map reader := by
  cases view with
  | map entries =>
    rw [reader_map] at h
    cases h
    exact ⟨entries, rfl, rfl⟩
  | string text =>
    rw [reader] at h
    split at h <;> cases h
  | _ => cases h

theorem decode_any_cases (hhook : hook.OnlyTimestamps) (h : view.reader.decode hook .any = .ok datum) :
    (∃ items data, view = list items ∧ datum = .list data ∧
      List.Forall₂ (fun item datum => item.reader.decode hook .any = .ok datum) items data) ∨
    (∃ entries data, view = map entries ∧ datum = .map data ∧
      Reader.decodeEntries hook (fun _ => .any) (entries.map reader) = .ok data) ∨
    (datum.isScalar = true ∧ datum.Untyped) := by
  have hread := h
  rw [Reader.decode_eq_readAny hhook (Reader.set?_of_decode hhook h)] at hread
  cases view with
  | null | bool | binary =>
    cases hread
    exact .inr (.inr ⟨rfl, trivial⟩)
  | number text =>
    simp only [reader, numberReader] at hread
    cases hnumber : Number.read text with
    | error fault =>
      rw [hnumber] at hread
      cases hread
    | ok n =>
      rw [hnumber] at hread
      cases n <;>
        · cases hread
          exact .inr (.inr ⟨rfl, trivial⟩)
  | string text =>
    rw [reader] at hread
    split at hread
    · cases hread
      exact .inr (.inr ⟨rfl, trivial⟩)
    · next hempty =>
      cases hread
      exact .inr (.inr ⟨rfl, fun htext => hempty (by rw [htext]; rfl)⟩)
  | list items =>
    rw [reader_list, Reader.decode_any_ofItems hhook, Reader.decode_ofItems hhook, map_eq_ok, List.mapM_map] at h
    obtain ⟨data, hdata, rfl⟩ := h
    exact .inl ⟨items, data, rfl, rfl, mapM_eq_ok_iff.mp hdata⟩
  | map entries =>
    rw [reader_map, Reader.decode_any_ofEntries hhook, Reader.decode_ofEntries hhook, map_eq_ok] at h
    obtain ⟨data, hdata, rfl⟩ := h
    exact .inr (.inl ⟨entries, data, rfl, rfl, hdata⟩)
  | set | empty => cases hread

theorem yields_of_children (hhook : hook = .none ∨ hook = .timestamps)
    (h : view.reader.decode hook type = .ok datum)
    (hlist : ∀ items, view = list items → ∀ item ∈ items, ∀ element datum,
      item.reader.decode hook element = .ok datum → element.Yields datum)
    (hmap : ∀ entries, view = map entries → ∀ entry ∈ entries.toList, ∀ element datum,
      entry.2.reader.decode hook element = .ok datum → element.Yields datum) : type.Yields datum := by
  have honly := Hook.onlyTimestamps_of_standard hhook
  by_cases hany : type = .any
  · subst hany
    obtain ⟨items, data, rfl, rfl, hitems⟩ | ⟨entries, data, rfl, rfl, hentries⟩ | ⟨hscalar, huntyped⟩ :=
      decode_any_cases honly h
    · apply Datum.yields_any_list
      exact forall_mem_of_forall₂ hitems fun item hitem => hlist items rfl item hitem .any
    · apply Datum.yields_any_map
      intro entry hentry
      obtain ⟨source, hsource, -, hdecode⟩ := Reader.forall_mem_of_decodeEntries hentries entry hentry
      exact hmap entries rfl source hsource .any entry.2 hdecode
    · exact Datum.yields_any_of_scalar hscalar huntyped
  by_cases htimestamp : type = .timestamp
  · subst htimestamp
    obtain ⟨-, _, instant, -, rfl⟩ := Reader.exists_instant_of_decode hhook h
    trivial
  rw [Reader.decode_eq_readTyped honly (Reader.set?_of_decode honly h) hany htimestamp] at h
  refine Reader.yields_of_readTyped (fun element data hdata => ?_) (fun element data hdata => ?_) h
  · obtain ⟨readers, hreaders, hitems⟩ := Reader.decodeList_eq_ok_iff.mp hdata
    obtain ⟨items, rfl, rfl⟩ := exists_of_reader_list hreaders
    rw [List.mapM_map, mapM_eq_ok_iff] at hitems
    exact forall_mem_of_forall₂ hitems fun item hitem => hlist items rfl item hitem element
  · obtain ⟨readers, hreaders, hentries⟩ := Reader.decodeMap_eq_ok_iff.mp hdata
    obtain ⟨entries, rfl, rfl⟩ := exists_of_reader_map hreaders
    intro entry hentry
    obtain ⟨source, hsource, -, hdecode⟩ := Reader.forall_mem_of_decodeEntries hentries entry hentry
    exact hmap entries rfl source hsource element entry.2 hdecode

theorem yields_of_decode (hhook : hook = .none ∨ hook = .timestamps)
    (h : view.reader.decode hook type = .ok datum) : type.Yields datum := by
  induction view generalizing type datum with
  | list items ih =>
    apply yields_of_children hhook h
    · rintro _ ⟨⟩ item hitem element datum
      exact ih item hitem
    · exact fun _ hview => nomatch hview
  | map entries ih =>
    apply yields_of_children hhook h
    · exact fun _ hview => nomatch hview
    · rintro _ ⟨⟩ entry hentry element datum
      exact ih entry hentry
  | _ => exact yields_of_children hhook h (fun _ hview => nomatch hview) fun _ hview => nomatch hview

structure ReadsAs (hook : Hook) (type : DatumType) (view : View) (datum : Datum) : Prop where
  yields : type.Yields datum
  null_iff : type.isNullable = true → (datum = .null ↔ view = null ∨ view = string "")
  items : ∀ data, datum = .list data → ∃ items element, view = list items ∧ type.item? = some element ∧
    List.Forall₂ (fun item datum => item.reader.decode hook element = .ok datum) items data
  entries : ∀ data, datum = .map data → ∃ entries element, view = map entries ∧ type.entry? = some element ∧
    (∀ name, name ∈ data.names ↔ name ∈ entries.names) ∧
    ∀ name part, entries.get? name = some part →
      ∃ datum, part.reader.decode hook element = .ok datum ∧ data.get? name = some datum

theorem null_iff_of_decode (hhook : hook = .none ∨ hook = .timestamps) (hnullable : type.isNullable = true)
    (h : view.reader.decode hook type = .ok datum) : datum = .null ↔ view = null ∨ view = string "" := by
  have honly := Hook.onlyTimestamps_of_standard hhook
  have hset := Reader.set?_of_decode honly h
  cases type with
  | bytes | list | map =>
    rw [Reader.decode_eq_readTyped honly hset (by simp) (by simp)] at h
    exact (Reader.eq_null_iff_of_ite (by simp) h).trans isNull_reader_iff
  | _ => cases hnullable

theorem exists_items_of_decode (hhook : hook = .none ∨ hook = .timestamps) {data : List Datum}
    (h : view.reader.decode hook type = .ok (.list data)) :
    ∃ items element, view = list items ∧ type.item? = some element ∧
      List.Forall₂ (fun item datum => item.reader.decode hook element = .ok datum) items data := by
  have honly := Hook.onlyTimestamps_of_standard hhook
  have hyields := yields_of_decode hhook h
  cases type with
  | any =>
    obtain ⟨items, _, rfl, hdata, hitems⟩ | ⟨_, _, -, hdata, -⟩ | ⟨hscalar, -⟩ := decode_any_cases honly h
    · cases hdata
      exact ⟨items, .any, rfl, rfl, hitems⟩
    · cases hdata
    · cases hscalar
  | list element =>
    rw [Reader.decode_eq_readTyped honly (Reader.set?_of_decode honly h) (by simp) (by simp)] at h
    obtain hnull | ⟨_, hdata, heq⟩ := eq_or_exists_of_ite h
    · cases hnull
    · cases heq
      obtain ⟨readers, hreaders, hitems⟩ := Reader.decodeList_eq_ok_iff.mp hdata
      obtain ⟨items, rfl, rfl⟩ := exists_of_reader_list hreaders
      rw [List.mapM_map, mapM_eq_ok_iff] at hitems
      exact ⟨items, element, rfl, rfl, hitems⟩
  | _ => exact hyields.elim

theorem exists_entries_of_decode (hhook : hook = .none ∨ hook = .timestamps) {data : SortedEntries Datum}
    (h : view.reader.decode hook type = .ok (.map data)) :
    ∃ entries element, view = map entries ∧ type.entry? = some element ∧
      Reader.decodeEntries hook (fun _ => element) (entries.map reader) = .ok data := by
  have honly := Hook.onlyTimestamps_of_standard hhook
  have hyields := yields_of_decode hhook h
  cases type with
  | any =>
    obtain ⟨_, _, -, hdata, -⟩ | ⟨entries, _, rfl, hdata, hentries⟩ | ⟨hscalar, -⟩ := decode_any_cases honly h
    · cases hdata
    · cases hdata
      exact ⟨entries, .any, rfl, rfl, hentries⟩
    · cases hscalar
  | map element =>
    rw [Reader.decode_eq_readTyped honly (Reader.set?_of_decode honly h) (by simp) (by simp)] at h
    obtain hnull | ⟨_, hdata, heq⟩ := eq_or_exists_of_ite h
    · cases hnull
    · cases heq
      obtain ⟨readers, hreaders, hentries⟩ := Reader.decodeMap_eq_ok_iff.mp hdata
      obtain ⟨entries, rfl, rfl⟩ := exists_of_reader_map hreaders
      exact ⟨entries, element, rfl, rfl, hentries⟩
  | _ => exact hyields.elim

theorem mem_names_of_decodeEntries {entries : Entries View} {element : DatumType} {data : SortedEntries Datum}
    (h : Reader.decodeEntries hook (fun _ => element) (entries.map reader) = .ok data) :
    (∀ name, name ∈ data.names ↔ name ∈ entries.names) ∧
      ∀ name part, entries.get? name = some part →
        ∃ datum, part.reader.decode hook element = .ok datum ∧ data.get? name = some datum := by
  obtain ⟨hdecoded, hnone⟩ := Reader.get?_of_decodeEntries h
  have hget : ∀ name part, entries.get? name = some part →
      ∃ datum, part.reader.decode hook element = .ok datum ∧ data.get? name = some datum := by
    intro name part hpart
    refine hdecoded (name, part.reader) (Entries.get?_eq_some_iff.mp ?_)
    rw [Entries.get?_map, hpart]
    rfl
  refine ⟨fun name => ⟨fun hname => ?_, fun hname => ?_⟩, hget⟩
  · have hentry : name ∈ data.toEntries.names := hname
    obtain ⟨datum, hdatum⟩ : ∃ datum, data.get? name = some datum := Entries.exists_get? hentry
    by_contra hmissing
    rw [hnone name hmissing] at hdatum
    cases hdatum
  · obtain ⟨part, hpart⟩ := Entries.exists_get? hname
    obtain ⟨datum, -, hdatum⟩ := hget name part hpart
    have hentry : data.toEntries.get? name = some datum := hdatum
    exact Entries.mem_names_of_get? hentry

theorem readsAs_of_decode (hhook : hook = .none ∨ hook = .timestamps)
    (h : view.reader.decode hook type = .ok datum) : ReadsAs hook type view datum where
  yields := yields_of_decode hhook h
  null_iff hnullable := null_iff_of_decode hhook hnullable h
  items := by
    rintro data rfl
    exact exists_items_of_decode hhook h
  entries := by
    rintro data rfl
    obtain ⟨entries, element, hview, htype, hentries⟩ := exists_entries_of_decode hhook h
    exact ⟨entries, element, hview, htype, mem_names_of_decodeEntries hentries⟩

theorem decode_none_ne_ok {position : Position} {part : View} (hpart : view.part? position = some part)
    (hposition : (Destination.datum type).at? position = some (.datum .timestamp)) (datum : Datum) :
    view.reader.decode .none type ≠ .ok datum := by
  intro h
  have hwhole : (Destination.datum type).read .none view.reader = .ok datum := h
  obtain ⟨inside, hinside, ⟨read, hread⟩, -⟩ := exists_readsPart Hook.onlyTimestamps_none hwhole hpart
  obtain rfl : inside = .datum .timestamp := Option.some.inj (hinside.symm.trans hposition)
  obtain ⟨hhook, -⟩ := Reader.exists_instant_of_decode (.inl rfl) hread
  exact Hook.none_ne_timestamps hhook

end Attribute.View

namespace Attribute

variable {α : Type} [Form α] {hook : Hook}

theorem decode_in_shape (hhook : hook = .none ∨ hook = .timestamps) (attr : α) (type : DatumType) :
    (∀ datum, (reader attr).decode hook type = .ok datum → View.ReadsAs hook type (Form.view attr) datum) ∧
      ∀ position part, (Form.view attr).part? position = some part →
        (Destination.datum type).at? position = some (.datum .timestamp) →
          ∃ fault, (reader attr).decode .none type = .error fault :=
  ⟨fun _ h => View.readsAs_of_decode hhook h,
    fun _ _ hpart hposition => exists_error_iff.mpr (View.decode_none_ne_ok hpart hposition)⟩

theorem decode_in_shape_sailings :
    (Hook.timestamps = .none ∨ Hook.timestamps = .timestamps) ∧
      (reader sailings).decode .timestamps (.list (.list .timestamp)) =
        .ok (.list [.list [.timestamp halfPast], .null]) ∧
      View.ReadsAs .timestamps (.list (.list .timestamp)) (Form.view sailings)
        (.list [.list [.timestamp halfPast], .null]) ∧
      (Form.view sailings).part? [.item 0, .item 0] = some (.string "2020-01-01T00:30:00Z") ∧
      (Destination.datum (.list (.list .timestamp))).at? [.item 0, .item 0] = some (.datum .timestamp) ∧
      ∃ fault, (reader sailings).decode .none (.list (.list .timestamp)) = .error fault := by
  obtain ⟨hshape, hmoment⟩ := decode_in_shape (.inr rfl) sailings (.list (.list .timestamp))
  have hpart : (Form.view sailings).part? [.item 0, .item 0] = some (.string "2020-01-01T00:30:00Z") := rfl
  exact ⟨.inr rfl, decode_sailings, hshape _ decode_sailings, hpart, rfl, hmoment _ _ hpart rfl⟩

end Attribute

end AttributeCodec
