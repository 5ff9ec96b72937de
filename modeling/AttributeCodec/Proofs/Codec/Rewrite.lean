import AttributeCodec.Proofs.Codec.RoundTrip
import AttributeCodec.Proofs.Datum.Reread

/-! An item that was read and written again is read as the same and written as itself. -/

namespace AttributeCodec

open Attribute (Form LawfulForm Members Tagged itemTree)

theorem Attribute.itemTree_eq_ok_iff {α : Type} [Form α] {item : Entries α} {tree : Tree} :
    itemTree item = .ok tree ↔
      ∃ entries, (item.traverse fun _ => Attribute.tree) = .ok entries ∧ .map entries = tree := by
  simp only [itemTree, itemFields_eq_traverse, Entries.traverse, bind_eq_ok, pure_eq_ok]
  constructor
  · rintro ⟨fields, hfields, rfl⟩
    exact ⟨_, ⟨fields, hfields, rfl⟩, rfl⟩
  · rintro ⟨_, ⟨fields, hfields, rfl⟩, rfl⟩
    exact ⟨fields, hfields, rfl⟩

theorem Attribute.normal_of_itemTree {α : Type} [Form α] {item : Entries α} {tree : Tree}
    (h : itemTree item = .ok tree) : tree.normal = tree := by
  obtain ⟨entries, hentries, rfl⟩ := itemTree_eq_ok_iff.mp h
  rw [Tree.normal_map, Entries.map_eq_self]
  exact forall_mem_of_forall₂ (Entries.traverse_eq_ok_iff.mp hentries) fun entry hentry t ht =>
    View.normal_of_tree ht.2

namespace Codec

variable (codec : Codec) {α : Type} [Form α] (β : Type) [Form β]

def Rewrites (item : Entries α) (types : SortedEntries DatumType) (result : Entity) : Prop :=
  ∃ (rewritten : Entries β) (reread : Entity), codec.encodeItem result = .ok rewritten ∧
    (codec.decodeItem rewritten).run.run { types := types } = (.ok (), reread) ∧
    reread.fields = result.fields ∧ codec.encodeItem reread = .ok rewritten ∧
    (types = .empty → ∃ tree, itemTree item = .ok tree ∧ itemTree rewritten = .ok tree.sorted)

variable {codec β}

theorem exists_of_run_decodeItem (hhook : codec.hook = .timestamps) {item : Entries α}
    {types : SortedEntries DatumType} {result : Entity}
    (h : (codec.decodeItem item).run.run { types := types } = (.ok (), result)) :
    ∃ entries decoded, itemTree item = .ok (.map entries) ∧
      Reader.decodeEntries .timestamps (Entity.typeOf { types := types }) (entries.map Tree.reader) =
        .ok decoded ∧ result = { types := types, fields := decoded } := by
  cases htree : itemTree item with
  | error fault =>
    rw [decodeItem, htree] at h
    cases h
  | ok tree =>
    obtain ⟨entries, -, rfl⟩ := Attribute.itemTree_eq_ok_iff.mp htree
    rw [decodeItem, htree, hhook] at h
    obtain ⟨decoded, hdecoded, rfl⟩ := Entity.decodedFields_of_run_decode h
    rw [Tree.reader_map] at hdecoded
    exact ⟨entries, decoded, rfl, hdecoded, by rw [SortedEntries.overlay_empty]⟩

variable [LawfulForm β]

theorem rewrites_of_run (hhook : codec.hook = .timestamps) {item : Entries α} {types : SortedEntries DatumType}
    {result : Entity} (h : (codec.decodeItem item).run.run { types := types } = (.ok (), result))
    (hdated : ∀ entry ∈ result.fields.toList, entry.2.Dated) : codec.Rewrites β item types result := by
  obtain ⟨entries, decoded, htree, hdecoded, rfl⟩ := exists_of_run_decodeItem hhook h
  have hnormal : (Tree.map entries).normal = .map entries := Attribute.normal_of_itemTree htree
  have hall : ∀ entry ∈ entries.toList, entry.2.Rereads := fun entry hentry =>
    Tree.rereads_of_normal (Tree.forall_normal_of_map hnormal entry hentry)
  have hagain := Tree.decodeEntries_again hall hdecoded hdated
  obtain ⟨rewritten, hencode, hrewritten⟩ := exists_encodeItem (α := β) hhook ⟨decoded, types⟩
  refine ⟨rewritten, ⟨decoded, types⟩, hencode, run_decodeItem hhook hrewritten hagain, rfl, hencode, ?_⟩
  rintro rfl
  have hany : (Tree.map entries).reader.decode .timestamps .any = .ok (.map decoded) := by
    rw [Tree.reader_map, Reader.decode_any_ofEntries Hook.onlyTimestamps_timestamps,
      Reader.decode_ofEntries Hook.onlyTimestamps_timestamps]
    exact map_eq_ok.mpr ⟨decoded, hdecoded, rfl⟩
  exact ⟨.map entries, htree, Tree.normal_tree_of_decode_any hnormal hany ▸ hrewritten⟩

theorem rewrites_timestamps (hhook : codec.hook = .timestamps) {item : Entries α}
    {types : SortedEntries DatumType} {result : Entity}
    (h : (codec.decodeItem item).run.run { types := types } = (.ok (), result))
    (hdated : ∀ entry ∈ result.fields.toList, entry.2.Dated) :
    codec.Rewrites Members item types result ∧ codec.Rewrites Tagged item types result :=
  ⟨rewrites_of_run hhook h hdated, rewrites_of_run hhook h hdated⟩

def scattered : Entries Members :=
  .ofList [("when", { string? := some "2020-01-01T00:30:00+01:00" }),
    ("count", { number? := some "1e3", string? := some "ten" }), ("blank", { string? := some "" })] (by decide)

def scatteredTrees : Entries Tree :=
  .ofList [("when", .string "2020-01-01T00:30:00+01:00"), ("count", .number (.int 1000)), ("blank", .null)]
    (by decide)

def scatteredTypes : SortedEntries DatumType := .ofList [("when", .timestamp), ("blank", .float)]

def lastHalfHour : Instant := ⟨1577835000, 0, by decide, by decide, by decide⟩

def gathered : Entity where
  fields := .ofList [("blank", .float .zero), ("count", .int 1000), ("when", .timestamp lastHalfHour)]
  types := scatteredTypes

theorem rewrites_timestamps_scattered :
    ((Codec.mk .timestamps none).decodeItem scattered).run.run { types := scatteredTypes } = (.ok (), gathered) ∧
      (∀ entry ∈ gathered.fields.toList, entry.2.Dated) ∧
      (Codec.mk .timestamps none).Rewrites Tagged scattered scatteredTypes gathered := by
  have hnumber : Number.read "1e3" = .ok (.int 1000) := by decide +kernel
  have hinstant : Instant.read "2020-01-01T00:30:00+01:00" = .ok lastHalfHour := by decide +kernel
  have hyear : 0 ≤ lastHalfHour.date.year ∧ lastHalfHour.date.year ≤ 9999 := by decide +kernel
  have hcount : Attribute.tree ({ number? := some "1e3", string? := some "ten" } : Members) =
      .ok (.number (.int 1000)) := by
    show Attribute.View.tree (.number "1e3") = _
    simp only [Attribute.View.tree, hnumber]
    rfl
  have htree : itemTree scattered = .ok (.map scatteredTrees) := by
    refine Attribute.itemTree_eq_ok_iff.mpr ⟨_, Entries.traverse_eq_ok_iff.mpr ?_, rfl⟩
    exact .cons ⟨rfl, rfl⟩ (.cons ⟨rfl, hcount⟩ (.cons ⟨rfl, rfl⟩ .nil))
  have hwhen : (Tree.string "2020-01-01T00:30:00+01:00").reader.decode .timestamps .timestamp =
      .ok (.timestamp lastHalfHour) := by
    refine (Reader.decode_eq ..).trans (Reader.consult_of_answer rfl ?_)
    show (do return some (Datum.timestamp (← Instant.read "2020-01-01T00:30:00+01:00"))) = _
    rw [hinstant]
    rfl
  have hdecoded : Reader.decodeEntries .timestamps (Entity.typeOf { types := scatteredTypes })
      (scatteredTrees.map Tree.reader) = .ok gathered.fields := by
    refine Tree.decodeEntries_reader_eq_ok_iff.mpr ⟨.cons "when" (Datum.timestamp lastHalfHour)
      (.cons "count" (Datum.int 1000) (.cons "blank" (Datum.float .zero) .nil)), Fields.traverse_eq_ok_iff.mpr ?_, rfl⟩
    exact .cons ⟨rfl, hwhen⟩ (.cons ⟨rfl, rfl⟩ (.cons ⟨rfl, rfl⟩ .nil))
  have hrun : ((Codec.mk .timestamps none).decodeItem scattered).run.run { types := scatteredTypes } =
      (.ok (), gathered) := by
    have hfields : Entity.decodedFields .timestamps { types := scatteredTypes } (Tree.map scatteredTrees).reader =
        .ok gathered.fields := by
      rw [Tree.reader_map]
      exact hdecoded
    rw [decodeItem, htree]
    exact Entity.run_decode hfields
  have hdated : ∀ entry ∈ gathered.fields.toList, entry.2.Dated := by
    have hfields : gathered.fields.toList =
        [("blank", .float .zero), ("count", .int 1000), ("when", .timestamp lastHalfHour)] := rfl
    rw [hfields]
    simp [Datum.Dated, Datum.nodes, hyear]
  exact ⟨hrun, hdated, (rewrites_timestamps rfl hrun hdated).2⟩

end Codec

end AttributeCodec
