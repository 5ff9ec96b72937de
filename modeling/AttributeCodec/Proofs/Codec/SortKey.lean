import AttributeCodec.Proofs.Codec.Key
import AttributeCodec.Proofs.Codec.RoundTrip
import AttributeCodec.Proofs.Instant.Order

namespace AttributeCodec

open Attribute (Form LawfulForm Members Tagged)

namespace Codec

variable {codec : Codec} {keys : KeyNames} {δ : Type} [Storable δ] {stored : δ}

section Keys

variable {α : Type} [Form α]

theorem fieldTree_toAttribute {name : String} {datum : Datum} (h : Storable.field stored name = .ok datum) :
    (KeyNames.fieldTree codec.hook stored name >>= Tree.toAttribute : Except Fault α) = codec.encodeDatum datum := by
  rw [KeyNames.fieldTree, h]
  rfl

theorem exists_key_of_fields [LawfulForm α] (hhook : codec.hook = .timestamps) (hkeys : codec.keys? = some keys)
    (hfields : ∀ name ∈ keys.names, ∃ datum, Storable.field stored name = .ok datum) :
    ∃ key : Entries α, codec.key stored = .ok key := by
  refine exists_key_of_fieldTree hkeys fun name hname => ?_
  obtain ⟨datum, hdatum⟩ := hfields name hname
  obtain ⟨attr, hattr, -⟩ := exists_encodeDatum (α := α) hhook datum
  exact ⟨attr, (fieldTree_toAttribute hdatum).trans hattr⟩

theorem encodeDatum_timestamp (hhook : codec.hook = .timestamps) (instant : Instant) :
    codec.encodeDatum (.timestamp instant) = .ok (Form.string instant.text : α) := by
  have hattr : (Tree.string instant.text).toAttribute = .ok (Form.string instant.text : α) := by
    rw [Tree.toAttribute, instant.isEmpty_text]
    rfl
  rw [encodeDatum, hhook, Datum.toTree_timestamps, Datum.tree_timestamp]
  exact hattr

theorem get?_of_key (hhook : codec.hook = .timestamps) (hkeys : codec.keys? = some keys) {key : Entries α}
    (h : codec.key stored = .ok key) {name : String} (hname : name ∈ keys.names) {instant : Instant}
    (hinstant : Storable.field stored name = .ok (.timestamp instant)) :
    key.get? name = some (Form.string instant.text) := by
  obtain ⟨hnames, hfields⟩ := fieldTree_toAttribute_of_key hkeys h
  obtain ⟨attr, hattr⟩ := Entries.exists_get? ((hnames name).mpr hname)
  have hfield := hfields _ (Entries.get?_eq_some_iff.mp hattr)
  rw [fieldTree_toAttribute hinstant, encodeDatum_timestamp hhook] at hfield
  rw [hattr, Except.ok.inj hfield]

end Keys

def sortText? (codec : Codec) (α : Type) [Form α] (stored : δ) : Option String := do
  let name ← (← codec.keys?).sort?
  let key : Entries α ← (codec.key stored).toOption
  match Form.view (← key.get? name) with
  | .string text => return text
  | _ => none

def SortsBefore (codec : Codec) (α : Type) [Form α] (stored other : δ) : Prop :=
  ∃ text otherText, codec.sortText? α stored = some text ∧ codec.sortText? α other = some otherText ∧
    Text.utf8 text < Text.utf8 otherText

structure DatedBy (keys : KeyNames) (stored : δ) (instant : Instant) : Prop where
  partition : ∃ datum, Storable.field stored keys.partition = .ok datum
  sort : ∃ name, keys.sort? = some name ∧ Storable.field stored name = .ok (.timestamp instant)

structure SortsByTime (codec : Codec) (α δ : Type) [Form α] [Storable δ] (keys : KeyNames) : Prop where
  text : ∀ (stored : δ) (instant : Instant), DatedBy keys stored instant →
    codec.sortText? α stored = some instant.text
  order : ∀ (stored other : δ) (instant later : Instant), DatedBy keys stored instant → DatedBy keys other later →
    instant.LeapInPlace → later.LeapInPlace → 0 ≤ instant.date.year ∧ instant.date.year ≤ 9999 →
      0 ≤ later.date.year ∧ later.date.year ≤ 9999 → (instant < later ↔ codec.SortsBefore α stored other)

theorem sortText?_of_datedBy {α : Type} [Form α] [LawfulForm α] (hhook : codec.hook = .timestamps)
    (hkeys : codec.keys? = some keys) {instant : Instant} (h : DatedBy keys stored instant) :
    codec.sortText? α stored = some instant.text := by
  obtain ⟨hpartition, name, hsort, hinstant⟩ := h
  have hnames : keys.names = [keys.partition, name] := by
    rw [KeyNames.names, hsort]
    rfl
  have hfields : ∀ other ∈ keys.names, ∃ datum, Storable.field stored other = .ok datum := by
    intro other hother
    rw [hnames, List.mem_pair] at hother
    rcases hother with rfl | rfl
    · exact hpartition
    · exact ⟨_, hinstant⟩
  obtain ⟨key, hkey⟩ := exists_key_of_fields (α := α) hhook hkeys hfields
  have hattr := get?_of_key hhook hkeys hkey (hnames ▸ List.mem_pair.mpr (.inr rfl)) hinstant
  simp [sortText?, hkeys, hsort, hkey, Except.toOption, hattr, LawfulForm.view_string]

theorem sortsByTime {α : Type} [Form α] [LawfulForm α] (hhook : codec.hook = .timestamps)
    (hkeys : codec.keys? = some keys) : codec.SortsByTime α δ keys where
  text _ _ h := sortText?_of_datedBy hhook hkeys h
  order stored other instant later hstored hother hplace hlaterPlace hyear hlater := by
    have htext := sortText?_of_datedBy (α := α) hhook hkeys hstored
    have hotherText := sortText?_of_datedBy (α := α) hhook hkeys hother
    rw [Instant.lt_iff_utf8_text_lt hplace hlaterPlace hyear hlater]
    constructor
    · intro h
      exact ⟨_, _, htext, hotherText, h⟩
    · rintro ⟨text, otherText, hsort, hotherSort, h⟩
      rw [htext, Option.some.injEq] at hsort
      rw [hotherText, Option.some.injEq] at hotherSort
      rwa [hsort, hotherSort]

theorem sortText_chronological :
    (∀ instant : Instant, instant.Carries) ∧
      (∀ {instant later : Instant}, instant.LeapInPlace → later.LeapInPlace →
        0 ≤ instant.date.year ∧ instant.date.year ≤ 9999 → 0 ≤ later.date.year ∧ later.date.year ≤ 9999 →
          (instant < later ↔ Text.utf8 instant.text < Text.utf8 later.text) ∧
            (instant.text = later.text ↔ instant = later)) ∧
      ∀ {codec : Codec} {keys : KeyNames}, codec.hook = .timestamps → codec.keys? = some keys →
        ∀ (δ : Type) [Storable δ], codec.SortsByTime Members δ keys ∧ codec.SortsByTime Tagged δ keys := by
  refine ⟨Instant.carries, fun hplace hlaterPlace hyear hlater => ⟨?_, ?_⟩, fun hhook hkeys _ _ =>
    ⟨sortsByTime hhook hkeys, sortsByTime hhook hkeys⟩⟩
  · exact Instant.lt_iff_utf8_text_lt hplace hlaterPlace hyear hlater
  · rw [Instant.text_eq_text_iff hyear hlater, Instant.carried_of_leapInPlace hplace,
      Instant.carried_of_leapInPlace hlaterPlace]

def newYear : Instant := ⟨1483228800, 250000000, by decide, by decide, by decide⟩

def logCodec : Codec := ⟨.timestamps, some ⟨"id", some "at"⟩⟩

def loggedAt (instant : Instant) : Entity :=
  (Entity.set {} "id" (.string "a1")).set "at" (.timestamp instant)

theorem sortText_chronological_new_year :
    logCodec.hook = .timestamps ∧ logCodec.keys? = some ⟨"id", some "at"⟩ ∧
      (∀ instant, DatedBy ⟨"id", some "at"⟩ (loggedAt instant) instant) ∧
      leapSecond < newYear ∧ Text.utf8 leapSecond.text < Text.utf8 newYear.text ∧
      logCodec.SortsBefore Members (loggedAt leapSecond) (loggedAt newYear) ∧
      logCodec.SortsBefore Tagged (loggedAt leapSecond) (loggedAt newYear) := by
  have hhook : logCodec.hook = .timestamps := rfl
  have hdated : ∀ instant, DatedBy ⟨"id", some "at"⟩ (loggedAt instant) instant :=
    fun instant => ⟨⟨.string "a1", rfl⟩, "at", rfl, rfl⟩
  have hyear : 0 ≤ leapSecond.date.year ∧ leapSecond.date.year ≤ 9999 := by decide +kernel
  have hlater : 0 ≤ newYear.date.year ∧ newYear.date.year ≤ 9999 := by decide +kernel
  have hlt : leapSecond < newYear := .inl (by decide)
  have hplace : leapSecond.LeapInPlace := by decide
  have hlaterPlace : newYear.LeapInPlace := by decide
  obtain ⟨-, htexts, hkeys⟩ := sortText_chronological
  obtain ⟨hmembers, htagged⟩ := hkeys hhook rfl Entity
  refine ⟨hhook, rfl, hdated, hlt, (htexts hplace hlaterPlace hyear hlater).1.mp hlt, ?_, ?_⟩
  · exact (hmembers.order _ _ _ _ (hdated _) (hdated _) hplace hlaterPlace hyear hlater).mp hlt
  · exact (htagged.order _ _ _ _ (hdated _) (hdated _) hplace hlaterPlace hyear hlater).mp hlt

-- A tenth of a second after the text of the stray leap second has begun to count.
def tenthAfter : Instant := { Instant.secondAfter with nanos := 100000000, nanos_lt := by decide }

theorem strayLeap_sorts_behind_tenthAfter :
    (0 ≤ Instant.strayLeap.date.year ∧ Instant.strayLeap.date.year ≤ 9999) ∧
      (0 ≤ tenthAfter.date.year ∧ tenthAfter.date.year ≤ 9999) ∧
      Instant.strayLeap < tenthAfter ∧ Text.utf8 tenthAfter.text < Text.utf8 Instant.strayLeap.text ∧
      Instant.strayLeap.text = Instant.secondAfter.text ∧ Instant.strayLeap ≠ Instant.secondAfter := by
  obtain ⟨hcarried, hne⟩ := Instant.carried_strayLeap
  have htext : Instant.strayLeap.text = Instant.secondAfter.text := by rw [← hcarried, Instant.text_carried]
  have hyear : 0 ≤ tenthAfter.date.year ∧ tenthAfter.date.year ≤ 9999 := by decide +kernel
  have hafter : 0 ≤ Instant.secondAfter.date.year ∧ Instant.secondAfter.date.year ≤ 9999 := by decide +kernel
  refine ⟨Instant.year_strayLeap, hyear, .inl (by decide), ?_, htext, hne⟩
  rw [htext]
  exact Instant.utf8_text_lt (by decide) (by decide) hyear hafter (.inr (by decide))

end Codec

end AttributeCodec
