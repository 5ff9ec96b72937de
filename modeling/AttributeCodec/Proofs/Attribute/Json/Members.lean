import AttributeCodec.Proofs.Attribute.Json.Values
import AttributeCodec.Proofs.Attribute.Settings
import Mathlib.Data.List.Nodup

namespace AttributeCodec.Attribute.Members

def Setting.write : Setting → Json
  | binary bytes => writeBinary bytes
  | bool value => .bool value
  | binarySet items => writeBinaries items
  | list items => .array (items.map Members.write)
  | map entries => .object (entries.map Members.write)
  | number text => .string text
  | numberSet texts => writeTexts texts
  | null value => .bool value
  | string text => .string text
  | stringSet texts => writeTexts texts

theorem nodup_names (value? : Member → Option Json) :
    ((Member.all.map fun member => (member.name, value? member)).map Prod.fst).Nodup :=
  show (Member.all.map Member.name).Nodup by decide

def named (value? : Member → Option Json) : Json := .object (.ofPresent _ (nodup_names value?))

def known (entries : List (String × Json)) : List (Member × Json) :=
  entries.filterMap fun entry => (Member.ofName? entry.1).map (·, entry.2)

def visited? : Json → Option (List (Member × Json))
  | .object members => some (known members.toList)
  | .array values => if values.length ≤ Member.all.length then some (Member.all.zip values) else none
  | _ => none

def readSetting (member : Member) (value : Json) : Except Malformed Setting :=
  match member with
  | .binary => return .binary (← readBinary value)
  | .bool => return .bool (← readBool value)
  | .binarySet => return .binarySet (← readBinaries value)
  | .list =>
    match value with
    | .array items => return .list (← items.mapM read)
    | _ => throw .shape
  | .map =>
    match value with
    | .object entries => return .map (← entries.traverse fun _ => read)
    | _ => throw .shape
  | .number => return .number (← readText value)
  | .numberSet => return .numberSet (← readTexts value)
  | .null => return .null (← readBool value)
  | .string => return .string (← readText value)
  | .stringSet => return .stringSet (← readTexts value)

def readSetting? (member : Member) : Json → Except Malformed (Option Setting)
  | .null => return none
  | value => return some (← readSetting member value)

theorem writeItems_eq_map (items : List Members) : writeItems items = items.map write := by
  induction items with
  | nil => rfl
  | cons item items ih => rw [writeItems, ih, List.map_cons]

theorem writeFields_eq_map {names : List String} (fields : Fields Members names) :
    writeFields fields = fields.map write := by
  induction fields with
  | nil => rfl
  | cons name value rest ih => rw [writeFields, ih, Fields.map]

theorem writeEntries_eq_map (entries : Entries Members) : writeEntries entries = entries.map write := by
  rw [writeEntries, writeFields_eq_map, Entries.map]

theorem readItems_eq_mapM (items : List Json) : readItems items = items.mapM read := by
  induction items with
  | nil => rfl
  | cons item items ih => rw [readItems, ih, List.mapM_cons]

theorem readFields_eq_traverse {names : List String} (fields : Fields Json names) :
    readFields fields = fields.traverse fun _ => read := by
  induction fields with
  | nil => rfl
  | cons name value rest ih => rw [readFields, ih, Fields.traverse]

theorem readEntries_eq_traverse (entries : Entries Json) :
    readEntries entries = entries.traverse fun _ => read := by
  rw [readEntries, readFields_eq_traverse, Entries.traverse]

theorem write_eq_named (members : Members) :
    members.write = named fun member => (members.setting? member).map Setting.write := by
  obtain ⟨_, _, _, list?, map?, _, _, _, _, _⟩ := members
  have hlist : writeList? list? = (list?.map Setting.list).map Setting.write := by
    cases list? with
    | none => rfl
    | some items => rw [writeList?, writeItems_eq_map]; rfl
  have hmap : writeMap? map? = (map?.map Setting.map).map Setting.write := by
    cases map? with
    | none => rfl
    | some entries => rw [writeMap?, writeEntries_eq_map]; rfl
  rw [write, hlist, hmap]
  simp only [named, Member.all, List.map_cons, List.map_nil, setting?, Option.map_map]
  rfl

theorem known_cons_of_none {name : String} (value : Json) (rest : List (String × Json))
    (h : Member.ofName? name = none) : known ((name, value) :: rest) = known rest :=
  List.filterMap_cons_none (by rw [h, Option.map_none])

theorem known_cons_of_some {name : String} {member : Member} (value : Json) (rest : List (String × Json))
    (h : Member.ofName? name = some member) :
    known ((name, value) :: rest) = (member, value) :: known rest :=
  List.filterMap_cons_some (by rw [h, Option.map_some])

theorem map_fst_known (entries : List (String × Json)) :
    (known entries).map Prod.fst = (entries.map Prod.fst).filterMap Member.ofName? := by
  simp only [known, List.map_filterMap, Option.map_map, List.filterMap_map]
  congr 1
  funext entry
  exact Option.map_id'

theorem lookup_filterMap (value? : Member → Option Json) (members : List Member) (member : Member) :
    (members.filterMap fun key => (value? key).map (key, ·)).lookup member =
      if member ∈ members then value? member else none := by
  induction members with
  | nil => rfl
  | cons key rest ih =>
    by_cases hkey : member = key
    · subst hkey
      cases hvalue : value? member with
      | none => simp [hvalue, ih]
      | some value => simp [hvalue]
    · cases hvalue : value? key with
      | none => simp [hvalue, ih, hkey]
      | some value => simp [hvalue, ih, hkey, List.lookup_cons, beq_false_of_ne hkey]

theorem visited?_named (value? : Member → Option Json) :
    visited? (named value?) = some (Member.all.filterMap fun member => (value? member).map (member, ·)) := by
  have hkey : ∀ member, Member.ofName? member.name = some member :=
    fun member => Member.ofName?_eq_some_iff.mpr rfl
  rw [named, visited?, known, Entries.ofPresent, Entries.toList_ofList, List.filterMap_map,
    List.filterMap_filterMap]
  congr 2
  funext member
  cases hvalue : value? member with
  | none => simp [hvalue]
  | some value => simp [hvalue, hkey]

variable {start members : Members} {member : Member} {value : Json}

theorem readMember_eq_ok_iff :
    readMember start member value = .ok members ↔
      ∃ setting?, readSetting? member value = .ok setting? ∧ setting?.elim start start.set = members := by
  have heq : readMember start member value = do return (← readSetting? member value).elim start start.set := by
    cases member <;> cases value <;>
      simp only [readMember, readSetting?, readSetting, readLeaf, readItems_eq_mapM, readEntries_eq_traverse,
        bind_assoc, pure_bind] <;> rfl
  simp only [heq, bind_eq_ok, pure_eq_ok]

theorem readSetting_list_eq_ok_iff {setting : Setting} :
    readSetting .list value = .ok setting ↔
      ∃ values items, value = .array values ∧ values.mapM read = .ok items ∧ .list items = setting := by
  cases value <;> simp [readSetting]

theorem readSetting_map_eq_ok_iff {setting : Setting} :
    readSetting .map value = .ok setting ↔
      ∃ values entries, value = .object values ∧ values.traverse (fun _ => read) = .ok entries ∧
        .map entries = setting := by
  cases value <;> simp [readSetting]

theorem readSetting?_eq_ok_iff {setting? : Option Setting} :
    readSetting? member value = .ok setting? ↔
      (value = .null ∧ setting? = none) ∨
        value ≠ .null ∧ ∃ setting, readSetting member value = .ok setting ∧ some setting = setting? := by
  cases value <;> simp [readSetting?, eq_comm (b := setting?)]

theorem member_of_readSetting {setting : Setting} (h : readSetting member value = .ok setting) :
    setting.member = member := by
  cases member with
  | list =>
    obtain ⟨_, _, -, -, rfl⟩ := readSetting_list_eq_ok_iff.mp h
    rfl
  | map =>
    obtain ⟨_, _, -, -, rfl⟩ := readSetting_map_eq_ok_iff.mp h
    rfl
  | _ =>
    simp only [readSetting, bind_eq_ok, pure_eq_ok] at h
    obtain ⟨_, -, rfl⟩ := h
    rfl

theorem member_of_readSetting? {setting? : Option Setting} (h : readSetting? member value = .ok setting?) :
    ∀ setting ∈ setting?, setting.member = member := by
  rintro setting rfl
  rcases readSetting?_eq_ok_iff.mp h with ⟨-, ⟨⟩⟩ | ⟨-, other, hother, ⟨⟩⟩
  exact member_of_readSetting hother

theorem readSetting_write {setting : Setting}
    (ih : ∀ child ∈ setting.children, read child.write = .ok child) :
    readSetting setting.member setting.write = .ok setting := by
  cases setting with
  | list items =>
    refine readSetting_list_eq_ok_iff.mpr ⟨_, items, rfl, ?_, rfl⟩
    rw [mapM_eq_ok_iff, List.forall₂_map_left_iff, List.forall₂_same]
    exact ih
  | map entries =>
    refine readSetting_map_eq_ok_iff.mpr ⟨_, entries, rfl, ?_, rfl⟩
    rw [Entries.traverse_eq_ok_iff, Entries.toList_map, List.forall₂_map_left_iff, List.forall₂_same]
    exact fun entry hentry => ⟨rfl, List.forall_mem_map.mp ih entry hentry⟩
  | _ =>
    simp only [Setting.member, Setting.write, readSetting, bind_eq_ok, pure_eq_ok, readBinary_eq_ok_iff,
      readBool_eq_ok_iff, readBinaries_eq_ok_iff, readText_eq_ok_iff, readTexts_eq_ok_iff]
    exact ⟨_, rfl, rfl⟩

theorem setting?_elim_set {setting? : Option Setting} (h : ∀ setting ∈ setting?, setting.member = member)
    (start : Members) (key : Member) :
    (setting?.elim start start.set).setting? key =
      if member = key then setting?.or (start.setting? key) else start.setting? key := by
  cases setting? with
  | none => simp
  | some setting =>
    rw [Option.elim_some, setting?_set, h setting rfl, Option.some_or]

def valueIn (pairs : List (Member × Json)) (member : Member) : Json := (pairs.lookup member).getD .null

theorem valueIn_of_not_mem {pairs : List (Member × Json)} (h : member ∉ pairs.map Prod.fst) :
    valueIn pairs member = .null := by
  rw [valueIn, List.lookup_eq_none_iff.mpr, Option.getD_none]
  intro pair hpair
  rw [bne_iff_ne]
  rintro rfl
  exact h (List.mem_map_of_mem hpair)

theorem valueIn_cons (key : Member) (value : Json) (rest : List (Member × Json)) (member : Member) :
    valueIn ((key, value) :: rest) member = if key = member then value else valueIn rest member := by
  rw [valueIn, List.lookup_cons]
  split
  · next heq => rw [if_pos (beq_iff_eq.mp heq).symm, Option.getD_some]
  · next hne => rw [if_neg (Ne.symm (beq_eq_false_iff_ne.mp hne)), valueIn]

theorem foldlM_readMember_eq_ok_iff {pairs : List (Member × Json)} (hpairs : (pairs.map Prod.fst).Nodup)
    (start : Members) :
    pairs.foldlM (fun members pair => readMember members pair.1 pair.2) start = .ok members ↔
      ∀ member, ∃ setting?, readSetting? member (valueIn pairs member) = .ok setting? ∧
        setting?.or (start.setting? member) = members.setting? member := by
  induction pairs generalizing start with
  | nil =>
    simp only [List.foldlM_nil, pure_eq_ok, valueIn, List.lookup_nil, Option.getD_none, readSetting?,
      exists_eq_left', Option.none_or]
    exact ⟨fun h member => h ▸ rfl, ext_setting?⟩
  | cons pair rest ih =>
    obtain ⟨key, value⟩ := pair
    obtain ⟨hkey, hrest⟩ := List.nodup_cons.mp hpairs
    have hnull : readSetting? key (valueIn rest key) = .ok none := by
      rw [valueIn_of_not_mem hkey]
      rfl
    simp only [List.foldlM_cons, bind_eq_ok, ih hrest, valueIn_cons]
    constructor
    · rintro ⟨mid, hmid, hall⟩ member
      obtain ⟨setting?, hsetting, rfl⟩ := readMember_eq_ok_iff.mp hmid
      obtain ⟨other?, hother, heq⟩ := hall member
      rw [setting?_elim_set (member_of_readSetting? hsetting)] at heq
      by_cases h : key = member
      · subst h
        obtain rfl : none = other? := Except.ok.inj (hnull.symm.trans hother)
        rw [if_pos rfl]
        exact ⟨setting?, hsetting, by rwa [if_pos rfl] at heq⟩
      · rw [if_neg h] at heq ⊢
        exact ⟨other?, hother, heq⟩
    · intro hall
      obtain ⟨setting?, hsetting, heq⟩ := hall key
      rw [if_pos rfl] at hsetting
      refine ⟨_, readMember_eq_ok_iff.mpr ⟨setting?, hsetting, rfl⟩, fun member => ?_⟩
      rw [setting?_elim_set (member_of_readSetting? hsetting)]
      by_cases h : key = member
      · subst h
        rw [if_pos rfl]
        exact ⟨none, hnull, heq⟩
      · simpa only [if_neg h] using hall member

theorem readNamed_eq_foldlM {names : List String} (fields : Fields Json names) (start : Members) :
    readNamed start fields =
      (known fields.toList).foldlM (fun members pair => readMember members pair.1 pair.2) start := by
  induction fields generalizing start with
  | nil => rfl
  | cons name value rest ih =>
    rw [readNamed, Fields.toList]
    cases hname : Member.ofName? name with
    | none =>
      rw [known_cons_of_none value _ hname]
      exact ih start
    | some member =>
      rw [known_cons_of_some value _ hname, List.foldlM_cons]
      exact bind_congr fun members => ih members

theorem readPositional_eq_ok_iff {keys : List Member} {values : List Json} :
    readPositional start keys values = .ok members ↔
      values.length ≤ keys.length ∧
        (keys.zip values).foldlM (fun members pair => readMember members pair.1 pair.2) start =
          .ok members := by
  induction keys generalizing start values with
  | nil => cases values <;> simp [readPositional]
  | cons key keys ih =>
    cases values with
    | nil => simp [readPositional]
    | cons value values =>
      simp only [readPositional, bind_eq_ok, ih, List.length_cons, Nat.add_le_add_iff_right, List.zip_cons_cons,
        List.foldlM_cons]
      constructor
      · rintro ⟨mid, hmid, hlength, hrest⟩
        exact ⟨hlength, mid, hmid, hrest⟩
      · rintro ⟨hlength, mid, hmid, hrest⟩
        exact ⟨mid, hmid, hlength, hrest⟩

theorem nodup_visited? {json : Json} {pairs : List (Member × Json)} (h : visited? json = some pairs) :
    (pairs.map Prod.fst).Nodup := by
  cases json with
  | object entries =>
    obtain rfl := Option.some.inj h
    rw [map_fst_known]
    refine List.Nodup.filterMap (fun name other member hname hother => ?_) entries.nodup_map_fst_toList
    rw [← Member.ofName?_eq_some_iff.mp hname, Member.ofName?_eq_some_iff.mp hother]
  | array values =>
    rw [visited?, Option.ite_none_right_eq_some] at h
    obtain ⟨hlength, ⟨⟩⟩ := h
    rw [List.zip_eq_zip_take_min, List.map_fst_zip (by simp)]
    exact (show Member.all.Nodup by decide).sublist (List.take_sublist ..)
  | _ => simp [visited?] at h

theorem read_eq_ok_iff_foldlM {json : Json} :
    read json = .ok members ↔
      ∃ pairs, visited? json = some pairs ∧
        pairs.foldlM (fun members pair => readMember members pair.1 pair.2) {} = .ok members := by
  cases json with
  | object entries =>
    obtain ⟨names, distinct, fields⟩ := entries
    rw [read, readEntriesOf, readNamed_eq_foldlM]
    simp only [visited?, Option.some.injEq, exists_eq_left']
    rfl
  | array values =>
    simp only [read, readPositional_eq_ok_iff, visited?, Option.ite_none_right_eq_some, Option.some.injEq]
    constructor
    · rintro ⟨hlength, h⟩
      exact ⟨_, ⟨hlength, rfl⟩, h⟩
    · rintro ⟨_, ⟨hlength, rfl⟩, h⟩
      exact ⟨hlength, h⟩
  | _ => simp [read, visited?]

theorem read_eq_ok_iff {json : Json} :
    read json = .ok members ↔
      ∃ pairs, visited? json = some pairs ∧
        ∀ member, readSetting? member (valueIn pairs member) = .ok (members.setting? member) := by
  rw [read_eq_ok_iff_foldlM]
  refine exists_congr fun pairs => and_congr_right fun hpairs => ?_
  rw [foldlM_readMember_eq_ok_iff (nodup_visited? hpairs)]
  simp only [setting?_empty, Option.or_none, exists_eq_right]

theorem valueIn_named (value? : Member → Option Json) (member : Member) :
    valueIn (Member.all.filterMap fun key => (value? key).map (key, ·)) member = (value? member).getD .null := by
  rw [valueIn, lookup_filterMap, if_pos (mem_all member)]

theorem Setting.write_ne_null (setting : Setting) : setting.write ≠ .null := by
  cases setting <;> exact Json.noConfusion

theorem read_write (members : Members) : read members.write = .ok members := by
  induction members with
  | step members ih =>
    rw [write_eq_named]
    refine read_eq_ok_iff.mpr ⟨_, visited?_named _, fun member => ?_⟩
    rw [valueIn_named]
    cases hsetting : members.setting? member with
    | none => rfl
    | some setting =>
      obtain rfl := member_of_setting? hsetting
      have hread := readSetting_write (ih setting (mem_settings.mpr hsetting))
      exact readSetting?_eq_ok_iff.mpr (.inr ⟨setting.write_ne_null, setting, hread, rfl⟩)

end AttributeCodec.Attribute.Members
