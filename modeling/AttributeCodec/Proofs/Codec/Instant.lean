import AttributeCodec.Proofs.Codec.RoundTrip
import AttributeCodec.Proofs.Instant.Reread

namespace AttributeCodec

open Attribute (Form LawfulForm Members Tagged)

namespace Codec

structure ReadsInstantAs (codec : Codec) (α : Type) [Form α] (instant : Instant) (result : Except Fault Instant) :
    Prop where
  text : Instant.read instant.text = result
  tree : ∃ tree, (Datum.timestamp instant).toTree codec.hook = .ok tree ∧
    tree.reader.decode codec.hook .timestamp = result.map .timestamp
  encoded : ∃ attr : α, codec.encodeDatum (.timestamp instant) = .ok attr ∧
    codec.decodeDatum .timestamp attr = result.map .timestamp

variable {codec : Codec} {α : Type} [Form α] [LawfulForm α] {instant : Instant} {result : Except Fault Instant}

theorem readsInstantAs (hhook : codec.hook = .timestamps) (h : Instant.read instant.text = result) :
    codec.ReadsInstantAs α instant result := by
  have hdecode := Datum.decode_tree_timestamp instant
  rw [h] at hdecode
  obtain ⟨attr, hattr, hdecodeAttr⟩ := exists_encodeDatum (α := α) hhook (.timestamp instant)
  refine ⟨h, ⟨(Datum.timestamp instant).tree, ?_, ?_⟩, attr, hattr, ?_⟩
  · rw [hhook, Datum.toTree_timestamps]
  · rw [hhook, hdecode]
  · rw [hdecodeAttr, Datum.reader_timestamp, hdecode]

theorem readsInstant_iff_year (hhook : codec.hook = .timestamps) :
    (∀ instant : Instant, instant.Carries) ∧
    (∀ instant : Instant, 0 ≤ instant.date.year ∧ instant.date.year ≤ 9999 →
      codec.ReadsInstantAs Members instant (.ok instant.carried) ∧
        codec.ReadsInstantAs Tagged instant (.ok instant.carried)) ∧
    (∀ instant : Instant, ¬(0 ≤ instant.date.year ∧ instant.date.year ≤ 9999) →
      codec.ReadsInstantAs Members instant
          (.error (.invalidTimestamp instant.text "input contains invalid characters")) ∧
        codec.ReadsInstantAs Tagged instant
          (.error (.invalidTimestamp instant.text "input contains invalid characters"))) ∧
    (∀ text instant, Instant.read text = .ok instant →
      ∃ time : CivilTime, time.Spelled text.toList ∧ time.instant = instant) ∧
    ∀ (time : CivilTime) (text : String), time.Spelled text.toList →
      Instant.read text = .ok time.instant ∧
        Instant.read time.instant.text =
          if time.LeavesRange then .error (.invalidTimestamp time.instant.text "input contains invalid characters")
          else .ok time.instant := by
  refine ⟨Instant.carries, fun instant hyear => ?_, fun instant hyear => ?_, fun text instant h => ?_,
    fun time text h => ⟨?_, ?_⟩⟩
  · have hread := Instant.read_text hyear
    exact ⟨readsInstantAs hhook hread, readsInstantAs hhook hread⟩
  · have hread := Instant.read_text_of_signed hyear
    exact ⟨readsInstantAs hhook hread, readsInstantAs hhook hread⟩
  · exact Instant.read_eq_ok_iff.mp h
  · exact Instant.read_eq_ok_iff.mpr ⟨time, h, rfl⟩
  · exact time.read_text_instant

def firstMinute : CivilTime where
  date := ⟨0, 1, 1⟩
  clock := ⟨0, 0, 0, 0, by decide, by decide, by decide, by decide⟩
  offset := 1
  date_exists := by decide
  year_bounds := by decide
  offset_bounds := by decide

theorem readsInstant_iff_year_first_minute :
    (Codec.mk .timestamps none).ReadsInstantAs Members leapSecond (.ok leapSecond) ∧
      Instant.read "0000-01-01T00:00:00+00:01" = .ok firstMinute.instant ∧ firstMinute.LeavesRange ∧
      Instant.read "-0001-12-31T23:59:00.000000000Z" =
        .error (.invalidTimestamp "-0001-12-31T23:59:00.000000000Z" "input contains invalid characters") ∧
      (Codec.mk .timestamps none).ReadsInstantAs Tagged firstMinute.instant
        (.error (.invalidTimestamp "-0001-12-31T23:59:00.000000000Z" "input contains invalid characters")) := by
  have hhook : (Codec.mk .timestamps none).hook = .timestamps := rfl
  obtain ⟨hcarries, hkeeps, hrefuses, -, hread⟩ := readsInstant_iff_year hhook
  have hleap : 0 ≤ leapSecond.date.year ∧ leapSecond.date.year ≤ 9999 := by decide +kernel
  have hleaves : firstMinute.LeavesRange := by decide +kernel
  have htext : firstMinute.instant.text = "-0001-12-31T23:59:00.000000000Z" := by decide +kernel
  have hzone : Zone firstMinute.offset ('+' :: hoursMinutes 1) := Zone.ahead (show 1 < 1440 by decide)
  have hchars : firstMinute.chars 'T' [] ('+' :: hoursMinutes 1) = "0000-01-01T00:00:00+00:01".toList := by
    decide +kernel
  have hspelled : firstMinute.Spelled "0000-01-01T00:00:00+00:01".toList :=
    hchars ▸ .intro (by decide) (.none rfl) hzone
  obtain ⟨hfirst, hagain⟩ := hread firstMinute _ hspelled
  rw [if_pos hleaves, htext] at hagain
  have hsigned := (hrefuses firstMinute.instant (firstMinute.leavesRange_iff.mp hleaves)).2
  rw [htext] at hsigned
  have hkept := (hkeeps leapSecond hleap).1
  rw [(hcarries leapSecond).self_iff.mpr (by decide)] at hkept
  exact ⟨hkept, hfirst, hleaves, hagain, hsigned⟩

theorem strayLeap_read_as_secondAfter :
    (0 ≤ Instant.strayLeap.date.year ∧ Instant.strayLeap.date.year ≤ 9999) ∧
      Instant.read Instant.strayLeap.text = .ok Instant.secondAfter ∧
      Instant.read Instant.strayLeap.text ≠ .ok Instant.strayLeap ∧
      (Codec.mk .timestamps none).ReadsInstantAs Members Instant.strayLeap (.ok Instant.secondAfter) := by
  obtain ⟨hread, hother⟩ := Instant.read_strayLeap
  exact ⟨Instant.year_strayLeap, hread, hother, readsInstantAs rfl hread⟩

end Codec

end AttributeCodec
