import AttributeCodec.Attribute.Member
import AttributeCodec.Proofs.Base64.Canonical

namespace AttributeCodec.Attribute

theorem Member.ofName?_eq_some_iff {name : String} {member : Member} :
    ofName? name = some member ↔ member.name = name := by
  constructor
  · intro h
    simpa using List.find?_some h
  · rintro rfl
    cases member <;> decide

theorem Member.name_inj {member other : Member} : member.name = other.name ↔ member = other := by
  rw [← ofName?_eq_some_iff, ofName?_eq_some_iff.mpr rfl, Option.some.injEq, eq_comm]

variable {value : Json}

theorem readBool_eq_ok_iff {b : Bool} : readBool value = .ok b ↔ value = .bool b := by
  cases value <;> simp [readBool]

theorem readText_eq_ok_iff {text : String} : readText value = .ok text ↔ value = .string text := by
  cases value <;> simp [readText]

theorem readTexts_eq_ok_iff {texts : List String} :
    readTexts value = .ok texts ↔ value = writeTexts texts := by
  cases value with
  | array items =>
    rw [readTexts, mapM_eq_ok_iff_eq_map fun text _ item => readText_eq_ok_iff, writeTexts, Json.array.injEq]
  | _ => simp [readTexts, writeTexts]

theorem ofBase64_eq_ok_iff {text : String} {bytes : List UInt8} :
    ofBase64 text = .ok bytes ↔ text = Base64.write bytes := by
  rw [ofBase64, mapError_eq_ok, Base64.read_eq_ok_iff]

theorem readBinary_eq_ok_iff {bytes : List UInt8} :
    readBinary value = .ok bytes ↔ value = writeBinary bytes := by
  simp only [readBinary, bind_eq_ok, readText_eq_ok_iff, ofBase64_eq_ok_iff, writeBinary]
  constructor
  · rintro ⟨text, rfl, rfl⟩
    rfl
  · rintro rfl
    exact ⟨_, rfl, rfl⟩

theorem readBinaries_eq_ok_iff {items : List (List UInt8)} :
    readBinaries value = .ok items ↔ value = writeBinaries items := by
  simp only [readBinaries, bind_eq_ok, readTexts_eq_ok_iff,
    mapM_eq_ok_iff_eq_map fun bytes _ text => ofBase64_eq_ok_iff, writeBinaries, writeTexts]
  constructor
  · rintro ⟨texts, rfl, rfl⟩
    rw [List.map_map]
    rfl
  · rintro rfl
    refine ⟨_, ?_, rfl⟩
    rw [List.map_map]
    rfl

end AttributeCodec.Attribute
