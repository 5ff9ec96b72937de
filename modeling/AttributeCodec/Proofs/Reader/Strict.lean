import AttributeCodec.Proofs.Reader.InPlace
import AttributeCodec.Proofs.Reader.Readable

/-! A decoding in place that succeeds has read every node of the attribute. -/

namespace AttributeCodec

namespace Reader

variable {hook : Hook}

theorem readable_of_float (hhook : hook.OnlyTimestamps) {reader : Reader} {x : Binary64}
    (hset : reader.set? = none) (h : reader.float = .ok x) : reader.Readable hook := by
  have hread : reader.decode hook .float = reader.readTyped (reader.children hook) .float :=
    decode_eq_readTyped hhook hset (by decide) (by decide)
  by_cases hnull : reader.isNull = true
  · exact ⟨.float, .float .zero, by rw [hread, readTyped, if_pos hnull]; rfl⟩
  · exact ⟨.float, .float x, by rw [hread, readTyped, if_neg hnull, h]; rfl⟩

theorem exists_of_complexOfItems {items : List Reader} {z : Binary64 × Binary64}
    (h : complexOfItems items = .ok z) : ∀ item ∈ items, ∃ x, item.float = .ok x := by
  unfold complexOfItems at h
  split at h
  · simp only [bind_eq_ok, pure_eq_ok] at h
    obtain ⟨re, hre, im, him, rfl⟩ := h
    simp [hre, him]
  · simp at h

theorem readable_of_ofItems (hhook : hook.OnlyTimestamps) {items : List Reader}
    (hsets : ∀ item ∈ items, ∀ x, item.float = .ok x → item.set? = none)
    (h : (ofItems items).Readable hook) : ∀ item ∈ items, item.Readable hook := by
  intro item hitem
  cases (h.answered hhook).2 with
  | complex hz =>
    obtain ⟨x, hx⟩ := exists_of_complexOfItems hz item hitem
    exact readable_of_float hhook (hsets item hitem x hx) hx
  | list hlist readable =>
    cases hlist
    exact readable item hitem
  | null hnull => simp [ofItems, ofKind, refusing] at hnull
  | bool hv | int hv | uint hv | float hv | bytes hv | string hv | map hv =>
    simp [ofItems, ofKind, refusing] at hv

theorem readable_of_ofEntries (hhook : hook.OnlyTimestamps) {entries : Entries Reader}
    (h : (ofEntries entries).Readable hook) : ∀ entry ∈ entries.toList, entry.2.Readable hook := by
  intro entry hentry
  cases (h.answered hhook).2 with
  | map hmap readable =>
    cases hmap
    exact readable entry hentry
  | null hnull => simp [ofEntries, ofKind, refusing] at hnull
  | bool hv | int hv | uint hv | float hv | complex hv | bytes hv | string hv | list hv =>
    simp [ofEntries, ofKind, refusing] at hv

end Reader

namespace Attribute

namespace View

variable {hook : Hook}

theorem set?_of_float {view : View} {x : Binary64} (h : view.reader.float = .ok x) :
    view.reader.set? = none := by
  cases view with
  | set => simp [reader, Reader.ofSet, Reader.refusing] at h
  | string text =>
    simp only [reader]
    split <;> rfl
  | _ => rfl

theorem readable_item (hhook : hook.OnlyTimestamps) {items : List View}
    (h : (list items).reader.Readable hook) : ∀ item ∈ items, item.reader.Readable hook := by
  rw [reader_list] at h
  have hall := Reader.readable_of_ofItems hhook
    (fun r hr x hx => by
      obtain ⟨item, -, rfl⟩ := List.mem_map.mp hr
      exact set?_of_float hx) h
  exact List.forall_mem_map.mp hall

theorem readable_entry (hhook : hook.OnlyTimestamps) {entries : Entries View}
    (h : (map entries).reader.Readable hook) :
    ∀ entry ∈ entries.toList, entry.2.reader.Readable hook := by
  rw [reader_map] at h
  have hall := Reader.readable_of_ofEntries hhook h
  rw [Entries.toList_map] at hall
  intro entry hentry
  exact hall (entry.1, entry.2.reader) (List.mem_map.mpr ⟨entry, hentry, rfl⟩)

theorem readable_node (hhook : hook.OnlyTimestamps) {view part : View}
    (h : view.reader.Readable hook) (hpart : part ∈ view.nodes) : part.reader.Readable hook := by
  induction view with
  | list items ih =>
    rcases mem_nodes_list.mp hpart with rfl | ⟨item, hitem, hpart⟩
    · exact h
    · exact ih item hitem (readable_item hhook h item hitem) hpart
  | map entries ih =>
    rcases mem_nodes_map.mp hpart with rfl | ⟨entry, hentry, hpart⟩
    · exact h
    · exact ih entry hentry (readable_entry hhook h entry hentry) hpart
  | _ => obtain rfl := List.mem_singleton.mp hpart; exact h

def isFaulty : View → Bool
  | number text => (Numeral.ofChars? text.toList).all Numeral.overflows
  | set _ | empty => true
  | _ => false

theorem isFaulty_of_read {text : String} {fault : Fault} (h : Number.read text = .error fault) :
    (number text).isFaulty = true := by
  simp only [isFaulty, Option.all_eq_true]
  intro numeral hnumeral
  rw [Number.read, hnumeral] at h
  by_contra hfine
  simp [hfine] at h

theorem read_of_isFaulty {text : String} (h : (number text).isFaulty = true) :
    Number.read text = .error (.invalidNumber text) := by
  simp only [isFaulty, Option.all_eq_true] at h
  unfold Number.read
  split
  · next numeral hnumeral => rw [if_pos (h numeral hnumeral)]
  · rfl

theorem not_readable_of_isFaulty (hhook : hook.OnlyTimestamps) {view : View} (h : view.isFaulty = true) :
    ¬view.reader.Readable hook := by
  intro hread
  obtain ⟨hset, hanswered⟩ := hread.answered hhook
  cases view with
  | number text =>
    have hnumber := read_of_isFaulty h
    simp only [reader, numberReader, hnumber] at hanswered
    cases hanswered with
    | null hv => simp [Reader.ofKind, Reader.refusing] at hv
    | list hv | map hv => simp [Reader.ofKind, Reader.refusing] at hv
    | _ hv => simp [Reader.ofKind, Reader.refusing, bind, Except.bind] at hv
  | set type => simp [reader, Reader.ofSet] at hset
  | empty =>
    simp only [reader] at hanswered
    cases hanswered with
    | list hv | map hv => simp [Reader.refusing] at hv
    | _ hv => simp [Reader.refusing] at hv
  | _ => simp [isFaulty] at h

theorem exists_tree_of_readable (hhook : hook.OnlyTimestamps) {view : View}
    (h : view.reader.Readable hook) : ∃ t, view.tree = .ok t := by
  induction view with
  | number text =>
    cases hread : Number.read text with
    | ok n => exact ⟨.number n, by rw [tree, hread]; rfl⟩
    | error fault =>
      have hfaulty : (number text).isFaulty = true := isFaulty_of_read hread
      exact absurd h (not_readable_of_isFaulty hhook hfaulty)
  | list items ih =>
    obtain ⟨trees, htrees⟩ := exists_mapM_iff.mpr fun item hitem =>
      ih item hitem (readable_item hhook h item hitem)
    exact ⟨.list trees, by rw [tree_list, htrees]; rfl⟩
  | map entries ih =>
    obtain ⟨trees, htrees⟩ : ∃ trees, entries.traverse (fun _ => tree) = .ok trees :=
      Entries.exists_traverse_iff.mpr fun entry hentry =>
        ih entry hentry (readable_entry hhook h entry hentry)
    exact ⟨.map trees, by rw [tree_map, htrees]; rfl⟩
  | empty => exact absurd h (not_readable_of_isFaulty hhook rfl)
  | _ => exact ⟨_, rfl⟩

end View

variable {α : Type} [Form α] {hook : Hook}

theorem decode_eq_ok_iff (hhook : hook.OnlyTimestamps) {attr : α} {type : DatumType} {datum : Datum} :
    (reader attr).decode hook type = .ok datum ↔
      ∃ t, tree attr = .ok t ∧ t.reader.decode hook type = .ok datum := by
  constructor
  · intro h
    obtain ⟨t, ht⟩ := View.exists_tree_of_readable hhook ⟨type, datum, h⟩
    refine ⟨t, ht, ?_⟩
    rwa [reader, View.reader_of_tree ht] at h
  · rintro ⟨t, ht, h⟩
    rwa [reader, View.reader_of_tree ht]

theorem decode_inPlace_iff_tree (hhook : hook = .none ∨ hook = .timestamps) (attr : α)
    (type : DatumType) :
    (∀ datum, (reader attr).decode hook type = .ok datum ↔
      ∃ t, tree attr = .ok t ∧ t.reader.decode hook type = .ok datum) ∧
    ∀ part ∈ (Form.view attr).nodes, part.isFaulty = true →
      (∃ fault, (reader attr).decode hook type = .error fault) ∧
        ∃ fault, (tree attr >>= fun t => t.reader.decode hook type) = .error fault := by
  have honly := Hook.onlyTimestamps_of_standard hhook
  refine ⟨fun datum => decode_eq_ok_iff honly, fun part hpart hfaulty => ?_⟩
  have hfails : ∀ datum, (reader attr).decode hook type ≠ .ok datum := fun datum h =>
    View.not_readable_of_isFaulty honly hfaulty (View.readable_node honly ⟨type, datum, h⟩ hpart)
  refine ⟨exists_error_iff.mpr hfails, exists_error_iff.mpr fun datum h => ?_⟩
  exact hfails datum ((decode_eq_ok_iff honly).mpr (bind_eq_ok.mp h))

def overflowing : Tagged := .list [.bool true, .number "1e400"]

theorem decode_inPlace_iff_tree_overflowing :
    View.number "1e400" ∈ (Form.view overflowing).nodes ∧
      (View.number "1e400").isFaulty = true ∧
      (∃ fault, (reader overflowing).decode .timestamps (.list .bool) = .error fault) ∧
      ∃ fault, (tree overflowing >>= fun t => t.reader.decode .timestamps (.list .bool)) =
        .error fault := by
  have hmem : View.number "1e400" ∈ (Form.view overflowing).nodes := .tail _ (.tail _ (.head _))
  have hfaulty : (View.number "1e400").isFaulty = true := by decide +kernel
  exact ⟨hmem, hfaulty,
    (decode_inPlace_iff_tree (.inr rfl) overflowing (.list .bool)).2 _ hmem hfaulty⟩

end Attribute

end AttributeCodec
