import AttributeCodec.Attribute.Members
import AttributeCodec.Proofs.Traversal

namespace AttributeCodec.Attribute.Members

namespace Setting

def member : Setting → Member
  | binary _ => .binary
  | bool _ => .bool
  | binarySet _ => .binarySet
  | list _ => .list
  | map _ => .map
  | number _ => .number
  | numberSet _ => .numberSet
  | null _ => .null
  | string _ => .string
  | stringSet _ => .stringSet

def children : Setting → List Members
  | list items => items
  | map entries => entries.toList.map Prod.snd
  | _ => []

end Setting

def setting? (members : Members) : Member → Option Setting
  | .binary => members.binary?.map .binary
  | .bool => members.bool?.map .bool
  | .binarySet => members.binarySet?.map .binarySet
  | .list => members.list?.map .list
  | .map => members.map?.map .map
  | .number => members.number?.map .number
  | .numberSet => members.numberSet?.map .numberSet
  | .null => members.null?.map .null
  | .string => members.string?.map .string
  | .stringSet => members.stringSet?.map .stringSet

def settings (members : Members) : List Setting := Member.all.filterMap members.setting?

variable {members others : Members} {setting : Setting} {member : Member}

theorem mem_all (member : Member) : member ∈ Member.all := by
  cases member <;> decide

theorem member_of_setting? (h : members.setting? member = some setting) : setting.member = member := by
  cases member <;>
    · obtain ⟨value, -, rfl⟩ := Option.map_eq_some_iff.mp h
      rfl

theorem mem_settings : setting ∈ members.settings ↔ members.setting? setting.member = some setting := by
  rw [settings, List.mem_filterMap]
  constructor
  · rintro ⟨member, -, h⟩
    rwa [member_of_setting? h]
  · exact fun h => ⟨setting.member, mem_all _, h⟩

theorem setting?_set (members : Members) (setting : Setting) (member : Member) :
    (members.set setting).setting? member =
      if setting.member = member then some setting else members.setting? member := by
  cases setting <;> cases member <;> rfl

theorem setting?_empty (member : Member) : ({} : Members).setting? member = none := by
  cases member <;> rfl

theorem ext_setting? (h : ∀ member, members.setting? member = others.setting? member) :
    members = others := by
  have hbinary := Option.map_injective (fun _ _ => Setting.binary.inj) (h .binary)
  have hbool := Option.map_injective (fun _ _ => Setting.bool.inj) (h .bool)
  have hbinarySet := Option.map_injective (fun _ _ => Setting.binarySet.inj) (h .binarySet)
  have hlist := Option.map_injective (fun _ _ => Setting.list.inj) (h .list)
  have hmap := Option.map_injective (fun _ _ => Setting.map.inj) (h .map)
  have hnumber := Option.map_injective (fun _ _ => Setting.number.inj) (h .number)
  have hnumberSet := Option.map_injective (fun _ _ => Setting.numberSet.inj) (h .numberSet)
  have hnull := Option.map_injective (fun _ _ => Setting.null.inj) (h .null)
  have hstring := Option.map_injective (fun _ _ => Setting.string.inj) (h .string)
  have hstringSet := Option.map_injective (fun _ _ => Setting.stringSet.inj) (h .stringSet)
  cases members
  cases others
  simp only [mk.injEq]
  exact ⟨hbinary, hbool, hbinarySet, hlist, hmap, hnumber, hnumberSet, hnull, hstring, hstringSet⟩

theorem eq_set_empty_iff : members = ({} : Members).set setting ↔ members.settings = [setting] := by
  constructor
  · rintro rfl
    cases setting <;> rfl
  · intro h
    have hsetting : members.setting? setting.member = some setting :=
      mem_settings.mp (h ▸ List.mem_singleton_self setting)
    refine ext_setting? fun member => ?_
    rw [setting?_set, setting?_empty]
    split
    · next heq => rw [← heq, hsetting]
    · next hne =>
      cases hother : members.setting? member with
      | none => rfl
      | some other =>
        have hmem : other ∈ members.settings :=
          mem_settings.mpr ((member_of_setting? hother).symm ▸ hother)
        rw [h, List.mem_singleton] at hmem
        exact absurd (hmem ▸ member_of_setting? hother) hne

theorem forall_children_iff {p : Members → Prop} :
    (∀ setting ∈ members.settings, ∀ child ∈ setting.children, p child) ↔
      (∀ items ∈ members.list?, ∀ item ∈ items, p item) ∧
        ∀ entries ∈ members.map?, ∀ entry ∈ entries.toList, p entry.2 := by
  constructor
  · intro h
    constructor
    · rintro items hitems
      have hmem : Setting.list items ∈ members.settings :=
        mem_settings.mpr (Option.map_eq_some_iff.mpr ⟨items, hitems, rfl⟩)
      exact h _ hmem
    · rintro entries hentries
      have hmem : Setting.map entries ∈ members.settings :=
        mem_settings.mpr (Option.map_eq_some_iff.mpr ⟨entries, hentries, rfl⟩)
      exact List.forall_mem_map.mp (h _ hmem)
  · rintro ⟨hlist, hmap⟩ setting hsetting
    have hpresent := mem_settings.mp hsetting
    cases setting with
    | list items =>
      obtain ⟨_, hitems, ⟨⟩⟩ := Option.map_eq_some_iff.mp hpresent
      exact hlist items hitems
    | map entries =>
      obtain ⟨_, hentries, ⟨⟩⟩ := Option.map_eq_some_iff.mp hpresent
      exact List.forall_mem_map.mpr (hmap entries hentries)
    | _ => simp [Setting.children]

@[induction_eliminator]
theorem induction {motive : Members → Prop}
    (step : ∀ members : Members,
      (∀ setting ∈ members.settings, ∀ child ∈ setting.children, motive child) → motive members)
    (members : Members) : motive members := by
  refine Members.rec (motive_1 := motive)
    (motive_2 := fun items? => ∀ items ∈ items?, ∀ item ∈ items, motive item)
    (motive_3 := fun entries? => ∀ entries ∈ entries?, ∀ entry ∈ entries.toList, motive entry.2)
    (motive_4 := fun items => ∀ item ∈ items, motive item)
    (motive_5 := fun entries => ∀ entry ∈ entries.toList, motive entry.2)
    (motive_6 := fun _ fields => ∀ entry ∈ fields.toList, motive entry.2)
    ?_ ?_ ?_ ?_ ?_ ?_ ?_ ?_ ?_ ?_ members
  · intro _ _ _ list? map? _ _ _ _ _ hlist hmap
    exact step _ (forall_children_iff.mpr ⟨hlist, hmap⟩)
  · simp
  · intro items hitems
    simpa using hitems
  · simp
  · intro entries hentries
    simpa using hentries
  · simp
  · intro item items hitem hitems
    exact List.forall_mem_cons.mpr ⟨hitem, hitems⟩
  · intro names distinct fields hfields
    exact hfields
  · simp [Fields.toList]
  · intro names name value rest hvalue hrest
    exact List.forall_mem_cons.mpr ⟨hvalue, hrest⟩

mutual

def nodes : Members → List Members
  | members@⟨_, _, _, list?, map?, _, _, _, _, _⟩ =>
    members :: (nodesOfList? list? ++ nodesOfMap? map?)

def nodesOfList? : Option (List Members) → List Members
  | none => []
  | some items => nodesOfItems items

def nodesOfMap? : Option (Entries Members) → List Members
  | none => []
  | some entries => nodesOfEntries entries

def nodesOfItems : List Members → List Members
  | [] => []
  | item :: items => nodes item ++ nodesOfItems items

def nodesOfEntries : Entries Members → List Members
  | ⟨_, _, fields⟩ => nodesOfFields fields

def nodesOfFields {names : List String} : Fields Members names → List Members
  | .nil => []
  | .cons _ value rest => nodes value ++ nodesOfFields rest

end

theorem nodesOfItems_eq_flatMap (items : List Members) : nodesOfItems items = items.flatMap nodes := by
  induction items with
  | nil => rfl
  | cons item items ih => rw [nodesOfItems, ih, List.flatMap_cons]

theorem nodesOfFields_eq_flatMap {names : List String} (fields : Fields Members names) :
    nodesOfFields fields = fields.toList.flatMap fun entry => entry.2.nodes := by
  induction fields with
  | nil => rfl
  | cons name value rest ih => rw [nodesOfFields, ih, Fields.toList, List.flatMap_cons]

theorem forall_nodes_iff {p : Members → Prop} :
    (∀ node ∈ members.nodes, p node) ↔
      p members ∧ ∀ setting ∈ members.settings, ∀ child ∈ setting.children, ∀ node ∈ child.nodes, p node := by
  rw [forall_children_iff (p := fun child => ∀ node ∈ child.nodes, p node)]
  obtain ⟨_, _, _, list?, map?, _, _, _, _, _⟩ := members
  have hlist : (∀ node ∈ nodesOfList? list?, p node) ↔
      ∀ items ∈ list?, ∀ item ∈ items, ∀ node ∈ item.nodes, p node := by
    cases list? with
    | none => simp [nodesOfList?]
    | some items =>
      rw [nodesOfList?, nodesOfItems_eq_flatMap, List.forall_mem_flatMap]
      simp
  have hmap : (∀ node ∈ nodesOfMap? map?, p node) ↔
      ∀ entries ∈ map?, ∀ entry ∈ entries.toList, ∀ node ∈ entry.2.nodes, p node := by
    cases map? with
    | none => simp [nodesOfMap?]
    | some entries =>
      rw [nodesOfMap?, nodesOfEntries, nodesOfFields_eq_flatMap, List.forall_mem_flatMap]
      simp [Entries.toList]
  rw [nodes, List.forall_mem_cons, List.forall_mem_append, hlist, hmap]

end AttributeCodec.Attribute.Members
