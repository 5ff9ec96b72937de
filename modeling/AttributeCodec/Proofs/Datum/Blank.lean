import AttributeCodec.Codec
import AttributeCodec.Proofs.Attribute.Blank
import AttributeCodec.Proofs.Datum.Generic
import AttributeCodec.Proofs.Slot.Run

namespace AttributeCodec

open Attribute (Members Tagged Position Parted modifyAt nulledAt)
open Attribute.Parted (modifyChild)

def SortedEntries.modify {α : Type} (entries : SortedEntries α) (key : String) (f : α → α) : SortedEntries α :=
  ⟨entries.names, entries.ascending, entries.fields.modify key f⟩

namespace Datum

instance : Parted Datum where
  modifyChild
    | f, .item index, list items => list (items.modify index f)
    | f, .field name, map entries => map (entries.modify name f)
    | _, _, datum => datum

def nulled : Datum → Datum
  | string text => if text.isEmpty then null else string text
  | datum => datum

def nulledAt (positions : List Position) (datum : Datum) : Datum :=
  positions.foldl (fun datum position => modifyAt nulled position datum) datum

variable {hook : Hook}

def SameEncoding (hook : Hook) (datum other : Datum) : Prop :=
  ∀ notified, (encode hook notified datum).Indistinct (encode hook notified other)

theorem sameEncoding_refl (hook : Hook) (datum : Datum) : SameEncoding hook datum datum :=
  fun _ => ⟨rfl, fun _ => rfl⟩

section Modify

variable {f : Datum → Datum} (h : ∀ datum, SameEncoding hook (f datum) datum)

include h

theorem sameFills_modify_items (items : List Datum) (index position : Nat) :
    SameFills Slot.fillItems (genericItems hook index (items.modify position f)) (genericItems hook index items) := by
  induction items generalizing index position with
  | nil =>
    rw [List.modify_nil]
    exact ⟨rfl, fun _ => rfl⟩
  | cons item items ih =>
    cases position with
    | zero =>
      rw [List.modify_zero_cons, genericItems_cons, genericItems_cons]
      exact sameFills_visitThen (Slot.fillItems_cons_congr index) (h item false) fun _ => ⟨rfl, fun _ => rfl⟩
    | succ position =>
      rw [List.modify_succ_cons, genericItems_cons, genericItems_cons]
      exact sameFills_visitThen (Slot.fillItems_cons_congr index) ⟨rfl, fun _ => rfl⟩ fun _ => ih (index + 1) position

theorem sameFills_modify_fields {names : List String} (fields : Fields Datum names) (key : String) :
    SameFills Slot.fillFields (genericFields hook (fields.modify key f)) (genericFields hook fields) := by
  induction fields with
  | nil => exact ⟨rfl, fun _ => rfl⟩
  | cons name value rest ih =>
    rw [Fields.modify]
    split
    · rw [genericFields_cons, genericFields_cons]
      exact sameFills_visitThen (Slot.fillFields_cons_congr name) (h value false) fun _ => ⟨rfl, fun _ => rfl⟩
    · rw [genericFields_cons, genericFields_cons]
      exact sameFills_visitThen (Slot.fillFields_cons_congr name) ⟨rfl, fun _ => rfl⟩ fun _ => ih

theorem sameEncoding_modifyChild (hhook : hook = .none ∨ hook = .timestamps) (step : Attribute.Step) (datum : Datum) :
    SameEncoding hook (modifyChild f step datum) datum := by
  intro notified
  cases datum with
  | list items =>
    cases step with
    | item index =>
      show (encode hook notified (list (items.modify index f))).Indistinct _
      rw [encode_eq_generic hhook notified (by simp), encode_eq_generic hhook notified (by simp), generic, generic,
        List.length_modify]
      obtain ⟨hresult, hfill⟩ := sameFills_modify_items h items 0 index
      refine ⟨hresult, fun slot => ?_⟩
      exact congrArg Slot.list (hfill _)
    | field name => exact sameEncoding_refl hook _ notified
  | map entries =>
    cases step with
    | item index => exact sameEncoding_refl hook _ notified
    | field name =>
      show (encode hook notified (map (entries.modify name f))).Indistinct _
      rw [encode_eq_generic hhook notified (by simp), encode_eq_generic hhook notified (by simp), generic, generic,
        genericEntries, genericEntries]
      obtain ⟨hresult, hfill⟩ := sameFills_modify_fields h entries.fields name
      refine ⟨hresult, fun slot => ?_⟩
      exact congrArg (Slot.map entries.size) (hfill .empty)
  | _ => cases step <;> exact sameEncoding_refl hook _ notified

end Modify

section Nulled

variable (hhook : hook = .none ∨ hook = .timestamps)

include hhook

theorem sameEncoding_nulled (datum : Datum) : SameEncoding hook datum.nulled datum := by
  cases datum with
  | string text =>
    rw [nulled]
    split
    · next hempty =>
      intro notified
      rw [encode_eq_generic hhook notified (by simp), encode_eq_generic hhook notified (by simp)]
      refine ⟨rfl, fun slot => ?_⟩
      show Slot.ready .null = Slot.ready (.ofText text)
      rw [Tree.ofText, if_pos hempty]
    · exact sameEncoding_refl hook _
  | _ => exact sameEncoding_refl hook _

theorem sameEncoding_nulledAt (positions : List Position) (datum : Datum) :
    SameEncoding hook (datum.nulledAt positions) datum := by
  induction positions generalizing datum with
  | nil => exact sameEncoding_refl hook datum
  | cons position positions ih =>
    intro notified
    have hfirst : SameEncoding hook (modifyAt nulled position datum) datum :=
      Attribute.same_modifyAt (fun _ h => sameEncoding_modifyChild h hhook) (sameEncoding_nulled hhook) position datum
    have hrest := ih (modifyAt nulled position datum) notified
    exact ⟨hrest.result.trans (hfirst notified).result,
      fun slot => (hrest.run slot).trans ((hfirst notified).run slot)⟩

end Nulled

variable {datum other : Datum}

theorem SameEncoding.toTree_eq (h : SameEncoding hook datum other) : datum.toTree hook = other.toTree hook := by
  obtain ⟨hresult, hrun⟩ := h false
  rw [toTree, Encoding.tree, hresult, hrun, toTree, Encoding.tree]

theorem SameEncoding.encodeInto_eq (h : SameEncoding hook datum other) (slot : Slot) :
    datum.encodeInto hook slot = other.encodeInto hook slot := by
  obtain ⟨hresult, hrun⟩ := h slot.isEncoded
  exact Prod.ext (hrun slot) hresult

end Datum

namespace Codec

def ReadsBlankAsNull (α : Type) [Attribute.Form α] [Parted α] : Prop :=
  ∀ positions (attr : α), Attribute.tree (nulledAt positions attr) = Attribute.tree attr ∧
    ∀ hook type, (Attribute.reader (nulledAt positions attr)).decode hook type =
      (Attribute.reader attr).decode hook type

def WritesBlankAsNull (codec : Codec) (α : Type) [Attribute.Form α] : Prop :=
  ∀ positions (datum : Datum),
    (datum.nulledAt positions).toTree codec.hook = datum.toTree codec.hook ∧
      (∀ slot, (datum.nulledAt positions).encodeInto codec.hook slot = datum.encodeInto codec.hook slot) ∧
      (codec.encodeDatum (datum.nulledAt positions) : Except Fault α) = codec.encodeDatum datum

theorem readsBlankAsNull (α : Type) [Attribute.Form α] [Attribute.LawfulForm α] [Parted α]
    [Attribute.LawfulParted α] : ReadsBlankAsNull α := by
  intro positions attr
  obtain ⟨htree, hreader⟩ := Attribute.indistinct_nulledAt positions attr
  refine ⟨htree, fun hook type => ?_⟩
  rw [Attribute.reader, hreader, Attribute.reader]

theorem writesBlankAsNull {codec : Codec} (hhook : codec.hook = .none ∨ codec.hook = .timestamps) (α : Type)
    [Attribute.Form α] : codec.WritesBlankAsNull α := by
  intro positions datum
  have hsame := Datum.sameEncoding_nulledAt hhook positions datum
  refine ⟨hsame.toTree_eq, hsame.encodeInto_eq, ?_⟩
  rw [encodeDatum, hsame.toTree_eq, encodeDatum]

theorem blank_as_null :
    ReadsBlankAsNull Members ∧ ReadsBlankAsNull Tagged ∧
      ∀ codec : Codec, codec.hook = .none ∨ codec.hook = .timestamps →
        codec.WritesBlankAsNull Members ∧ codec.WritesBlankAsNull Tagged :=
  ⟨readsBlankAsNull Members, readsBlankAsNull Tagged,
    fun _ hhook => ⟨writesBlankAsNull hhook Members, writesBlankAsNull hhook Tagged⟩⟩

def partlyBlank : Members :=
  { list? := some [{ string? := some "", list? := some [{ string? := some "" }] }, { string? := some "full" }] }

def partlyNull : Members := { list? := some [{ null? := some true }, { string? := some "full" }] }

def blankEntry : Datum := .map (.ofList [("full", .string "f"), ("none", .list [.string "", .string ""])])

def nullEntry : Datum := .map (.ofList [("full", .string "f"), ("none", .list [.string "", .null])])

theorem blank_as_null_partly :
    Attribute.tree partlyNull = Attribute.tree partlyBlank ∧
      (∀ type, (Attribute.reader partlyNull).decode .timestamps type =
        (Attribute.reader partlyBlank).decode .timestamps type) ∧
      (Codec.mk .timestamps none).hook = .timestamps ∧
      nullEntry.toTree .timestamps = blankEntry.toTree .timestamps := by
  have hattr : nulledAt [[.item 0, .item 0], [.item 0], [.item 1], [.field "gone"]] partlyBlank = partlyNull := rfl
  have hdatum : blankEntry.nulledAt [[.field "full"], [.field "none", .item 1]] = nullEntry := rfl
  obtain ⟨hmembers, -, hwrites⟩ := blank_as_null
  obtain ⟨htree, hdecode⟩ := hmembers [[.item 0, .item 0], [.item 0], [.item 1], [.field "gone"]] partlyBlank
  have hencode := ((hwrites ⟨.timestamps, none⟩ (.inr rfl)).1 [[.field "full"], [.field "none", .item 1]] blankEntry).1
  rw [hattr] at htree hdecode
  rw [hdatum] at hencode
  exact ⟨htree, hdecode .timestamps, rfl, hencode⟩

end Codec

end AttributeCodec
