import AttributeCodec.Proofs.Attribute.Json.Members
import AttributeCodec.Proofs.Attribute.Json.Tagged

/-! An attribute is read back from its JSON, and JSON that is read is written again, for a record tidied. -/

namespace AttributeCodec.Attribute

namespace Members

mutual

/-- Without the nulls and the unknown members, and with names for positions, in lists and maps too. -/
def tidied : Json → Json
  | .object members => named (tidiedOf members)
  | .array values => named (tidiedAt Member.all values)
  | json => json

def tidiedOf : Entries Json → Member → Option Json
  | ⟨_, _, fields⟩, member => tidiedNamed fields member

def tidiedNamed {names : List String} : Fields Json names → Member → Option Json
  | .nil, _ => none
  | .cons name value rest, member =>
    if name = member.name then tidiedMember member value else tidiedNamed rest member

def tidiedAt : List Member → List Json → Member → Option Json
  | key :: keys, value :: values, member =>
    if key = member then tidiedMember member value else tidiedAt keys values member
  | _, _, _ => none

def tidiedMember : Member → Json → Option Json
  | _, .null => none
  | .list, .array items => some (.array (tidiedItems items))
  | .map, .object entries => some (.object (tidiedEntries entries))
  | _, value => some value

def tidiedItems : List Json → List Json
  | [] => []
  | item :: items => tidied item :: tidiedItems items

def tidiedEntries : Entries Json → Entries Json
  | ⟨names, distinct, fields⟩ => ⟨names, distinct, tidiedFields fields⟩

def tidiedFields {names : List String} : Fields Json names → Fields Json names
  | .nil => .nil
  | .cons name value rest => .cons name (tidied value) (tidiedFields rest)

end

theorem tidiedItems_eq_map (items : List Json) : tidiedItems items = items.map tidied := by
  induction items with
  | nil => rfl
  | cons item items ih => rw [tidiedItems, ih, List.map_cons]

theorem tidiedFields_eq_map {names : List String} (fields : Fields Json names) :
    tidiedFields fields = fields.map tidied := by
  induction fields with
  | nil => rfl
  | cons name value rest ih => rw [tidiedFields, ih, Fields.map]

theorem tidiedEntries_eq_map (entries : Entries Json) : tidiedEntries entries = entries.map tidied := by
  rw [tidiedEntries, tidiedFields_eq_map, Entries.map]

theorem tidiedMember_null (member : Member) : tidiedMember member .null = none := by
  rw [tidiedMember]

theorem tidiedNamed_eq {names : List String} (fields : Fields Json names) (member : Member) :
    tidiedNamed fields member = tidiedMember member (valueIn (known fields.toList) member) := by
  induction fields with
  | nil => exact (tidiedMember_null member).symm
  | cons name value rest ih =>
    rw [tidiedNamed, Fields.toList]
    cases hname : Member.ofName? name with
    | none =>
      have hne : name ≠ member.name := by
        rintro rfl
        rw [Member.ofName?_eq_some_iff.mpr rfl] at hname
        exact absurd hname (Option.some_ne_none member)
      rw [if_neg hne, ih, known_cons_of_none value _ hname]
    | some key =>
      rw [known_cons_of_some value _ hname, valueIn_cons, ih]
      obtain rfl := Member.ofName?_eq_some_iff.mp hname
      simp only [Member.name_inj]
      split <;> rfl

theorem tidiedAt_eq (keys : List Member) (values : List Json) (member : Member) :
    tidiedAt keys values member = tidiedMember member (valueIn (keys.zip values) member) := by
  induction keys generalizing values with
  | nil => cases values <;> exact (tidiedMember_null member).symm
  | cons key keys ih =>
    cases values with
    | nil => exact (tidiedMember_null member).symm
    | cons value values =>
      rw [tidiedAt, ih, List.zip_cons_cons, valueIn_cons]
      split <;> rfl

theorem tidied_eq_named {json : Json} {pairs : List (Member × Json)} (h : visited? json = some pairs) :
    tidied json = named fun member => tidiedMember member (valueIn pairs member) := by
  cases json with
  | object entries =>
    obtain ⟨names, distinct, fields⟩ := entries
    obtain rfl := Option.some.inj h
    rw [tidied]
    congr 1
    funext member
    exact tidiedNamed_eq fields member
  | array values =>
    rw [visited?, Option.ite_none_right_eq_some] at h
    obtain ⟨-, ⟨⟩⟩ := h
    rw [tidied]
    congr 1
    funext member
    exact tidiedAt_eq Member.all values member
  | _ => simp [visited?] at h

theorem write_of_readSetting {member : Member} {value : Json} {setting : Setting}
    (h : readSetting member value = .ok setting)
    (ih : ∀ child ∈ setting.children, ∀ json, read json = .ok child → child.write = tidied json) :
    some setting.write = tidiedMember member value := by
  cases member with
  | list =>
    obtain ⟨values, items, rfl, hitems, rfl⟩ := readSetting_list_eq_ok_iff.mp h
    have heq : items.map write = values.map tidied :=
      map_eq_map_of_forall₂ (mapM_eq_ok_iff.mp hitems).flip ih
    rw [tidiedMember, tidiedItems_eq_map, ← heq, Setting.write]
  | map =>
    obtain ⟨values, entries, rfl, hentries, rfl⟩ := readSetting_map_eq_ok_iff.mp h
    have heq : entries.map write = values.map tidied := by
      apply Entries.toList_injective
      rw [Entries.toList_map, Entries.toList_map]
      refine map_eq_map_of_forall₂ (Entries.traverse_eq_ok_iff.mp hentries).flip fun y hy x hxy => ?_
      exact Prod.ext hxy.1.symm (List.forall_mem_map.mp ih y hy x.2 hxy.2)
    rw [tidiedMember, tidiedEntries_eq_map, ← heq, Setting.write]
  | _ =>
    simp only [readSetting, bind_eq_ok, pure_eq_ok, readBinary_eq_ok_iff, readBool_eq_ok_iff,
      readBinaries_eq_ok_iff, readText_eq_ok_iff, readTexts_eq_ok_iff] at h
    obtain ⟨_, rfl, rfl⟩ := h
    rfl

theorem map_write_of_readSetting? {member : Member} {value : Json} {setting? : Option Setting}
    (h : readSetting? member value = .ok setting?)
    (ih : ∀ setting ∈ setting?, ∀ child ∈ setting.children, ∀ json, read json = .ok child →
      child.write = tidied json) : setting?.map Setting.write = tidiedMember member value := by
  rcases readSetting?_eq_ok_iff.mp h with ⟨rfl, rfl⟩ | ⟨-, setting, hread, rfl⟩
  · exact (tidiedMember_null member).symm
  · exact write_of_readSetting hread (ih setting rfl)

theorem write_of_read {members : Members} {json : Json} (h : read json = .ok members) :
    members.write = tidied json := by
  induction members generalizing json with
  | step members ih =>
    obtain ⟨pairs, hpairs, hread⟩ := read_eq_ok_iff.mp h
    rw [write_eq_named, tidied_eq_named hpairs]
    congr 1
    funext member
    refine map_write_of_readSetting? (hread member) fun setting hsetting child hchild json => ?_
    exact ih setting (mem_settings.mpr ((member_of_setting? hsetting).symm ▸ hsetting)) child hchild

end Members

theorem json_lossless :
    (∀ attr : Members, Members.read attr.write = .ok attr) ∧
      (∀ attr : Tagged, Tagged.read attr.write = .ok attr) ∧
      (∀ (json : Json) (attr : Tagged), Tagged.read json = .ok attr → attr.write = json) ∧
      (∀ (json : Json) (attr : Members), Members.read json = .ok attr → attr.write = Members.tidied json) ∧
      (∀ (text : String) (bytes : List UInt8),
        readBinary (.string text) = .ok bytes ↔ text = Base64.write bytes) ∧
      ∀ (texts : List String) (items : List (List UInt8)),
        readBinaries (.array (texts.map .string)) = .ok items ↔ texts = items.map Base64.write := by
  refine ⟨Members.read_write, fun attr => Tagged.read_eq_ok_iff.mpr rfl,
    fun json attr h => (Tagged.read_eq_ok_iff.mp h).symm, fun json attr => Members.write_of_read,
    fun text bytes => ?_, fun texts items => ?_⟩
  · rw [readBinary_eq_ok_iff, writeBinary, Json.string.injEq]
  · have hwritten : writeBinaries items = .array ((items.map Base64.write).map .string) := by
      rw [List.map_map]
      rfl
    rw [readBinaries_eq_ok_iff, hwritten, Json.array.injEq]
    exact (List.map_injective_iff.mpr fun _ _ => Json.string.inj).eq_iff

def untidy : Json :=
  .object (.ofList [("Q", .bool true), ("NULL", .null),
    ("L", .array [.array [.string "AQ==", .null, .array [.string "", .string "AQID"]]])] (by decide))

theorem json_lossless_untidy :
    let attr : Members := { list? := some [{ binary? := some [1], binarySet? := some [[], [1, 2, 3]] }] }
    Members.read untidy = .ok attr ∧ attr.write = Members.tidied untidy := by
  intro attr
  have hread : Members.read untidy = .ok attr := by rfl
  exact ⟨hread, json_lossless.2.2.2.1 untidy attr hread⟩

end AttributeCodec.Attribute
