import AttributeCodec.Proofs.Attribute.Lawful
import AttributeCodec.Proofs.Attribute.Position
import AttributeCodec.Proofs.Attribute.Settings
import AttributeCodec.Proofs.Entries

namespace AttributeCodec.Attribute

def Member.precedence : List Member :=
  [.null, .bool, .number, .binary, .string, .list, .map, .stringSet, .numberSet, .binarySet]

theorem Member.mem_precedence (member : Member) : member ∈ precedence := by
  cases member <;> decide

theorem Member.nodup_precedence : precedence.Nodup := by decide

namespace Members

variable {members others : Members} {setting : Setting} {member : Member}

def viewed? (members : Members) : Option Setting := Member.precedence.findSome? members.setting?

def Setting.view : Setting → View
  | binary bytes => .binary bytes
  | bool value => .bool value
  | binarySet _ => .set .binary
  | list items => .list (items.map Members.view)
  | map entries => .map (entries.map Members.view)
  | number text => .number text
  | numberSet _ => .set .number
  | null _ => .null
  | string text => .string text
  | stringSet _ => .set .string

theorem view_eq_viewed (members : Members) : members.view = members.viewed?.elim .empty Setting.view := by
  obtain ⟨binary?, bool?, binarySet?, list?, map?, number?, numberSet?, null?, string?, stringSet?⟩ := members
  cases null? with
  | some => rfl
  | none =>
  cases bool? with
  | some => rfl
  | none =>
  cases number? with
  | some => rfl
  | none =>
  cases binary? with
  | some => rfl
  | none =>
  cases string? with
  | some => rfl
  | none =>
  cases list? with
  | some items => exact congrArg View.list (viewItems_eq_map items)
  | none =>
  cases map? with
  | some entries => exact congrArg View.map (viewEntries_eq_map entries)
  | none =>
  cases stringSet? with
  | some => rfl
  | none =>
  cases numberSet? with
  | some => rfl
  | none => cases binarySet? <;> rfl

theorem viewed?_set_empty (setting : Setting) : (({} : Members).set setting).viewed? = some setting := by
  cases setting <;> rfl

theorem viewed?_eq_none_iff : members.viewed? = none ↔ members = {} := by
  rw [viewed?, List.findSome?_eq_none_iff]
  constructor
  · intro h
    refine ext_setting? fun member => ?_
    rw [h member (Member.mem_precedence member), setting?_empty]
  · rintro rfl member -
    exact setting?_empty member

def ofSettings (settings : List Setting) : Members := settings.foldl set {}

def last? (settings : List Setting) (member : Member) : Option Setting :=
  settings.findRev? fun setting => setting.member = member

theorem last?_cons (setting : Setting) (settings : List Setting) (member : Member) :
    last? (setting :: settings) member =
      (last? settings member).or (if setting.member = member then some setting else none) := by
  rw [last?, last?, List.findRev?_eq_find?_reverse, List.findRev?_eq_find?_reverse, List.reverse_cons,
    List.find?_append, List.find?_singleton]
  simp only [decide_eq_true_eq]

theorem setting?_foldl_set (settings : List Setting) (members : Members) (member : Member) :
    (settings.foldl set members).setting? member = (last? settings member).or (members.setting? member) := by
  induction settings generalizing members with
  | nil => rfl
  | cons setting settings ih =>
    rw [List.foldl_cons, ih, setting?_set, last?_cons, Option.or_assoc]
    split <;> rfl

theorem setting?_ofSettings (settings : List Setting) : (ofSettings settings).setting? = last? settings := by
  funext member
  rw [ofSettings, setting?_foldl_set, setting?_empty, Option.or_none]

theorem view_ofSettings (settings : List Setting) :
    (ofSettings settings).view = (Member.precedence.findSome? (last? settings)).elim .empty Setting.view := by
  rw [view_eq_viewed, viewed?, setting?_ofSettings]

theorem ofSettings_eq_iff {settings others : List Setting} :
    ofSettings settings = ofSettings others ↔ ∀ member, last? settings member = last? others member := by
  rw [← setting?_ofSettings, ← setting?_ofSettings]
  exact ⟨fun h member => by rw [h], ext_setting?⟩

theorem set_comm {other : Setting} (h : setting.member ≠ other.member) (members : Members) :
    (members.set setting).set other = (members.set other).set setting := by
  refine ext_setting? fun member => ?_
  rw [setting?_set, setting?_set, setting?_set, setting?_set]
  by_cases hother : other.member = member
  · rw [if_pos hother, if_neg (hother ▸ h), if_pos hother]
  · rw [if_neg hother, if_neg hother]

section Inside

open Parted (modifyChild)

def Setting.modifyChild (f : Members → Members) : Step → Setting → Setting
  | .item index, list items => list (items.modify index f)
  | .field name, map entries => map (entries.modify name f)
  | _, setting => setting

theorem setting?_modifyChild (f : Members → Members) (step : Step) (members : Members) (member : Member) :
    (modifyChild f step members).setting? member = (members.setting? member).map (Setting.modifyChild f step) := by
  cases step with
  | item index =>
    cases member with
    | list =>
      show (members.list?.map (·.modify index f)).map Setting.list = (members.list?.map Setting.list).map _
      rw [Option.map_map, Option.map_map]
      rfl
    | _ =>
      rw [setting?, setting?, Option.map_map]
      rfl
  | field name =>
    cases member with
    | map =>
      show (members.map?.map (·.modify name f)).map Setting.map = (members.map?.map Setting.map).map _
      rw [Option.map_map, Option.map_map]
      rfl
    | _ =>
      rw [setting?, setting?, Option.map_map]
      rfl

theorem viewed?_modifyChild (f : Members → Members) (step : Step) (members : Members) :
    (modifyChild f step members).viewed? = members.viewed?.map (Setting.modifyChild f step) := by
  rw [viewed?, viewed?, List.map_findSome?]
  exact congrArg (Member.precedence.findSome? ·) (funext (setting?_modifyChild f step members))

theorem settings_modifyChild (f : Members → Members) (step : Step) (members : Members) :
    (modifyChild f step members).settings = members.settings.map (Setting.modifyChild f step) := by
  rw [settings, settings, List.map_filterMap]
  exact congrArg (Member.all.filterMap ·) (funext (setting?_modifyChild f step members))

def Setting.child? : Setting → Step → Option Members
  | list items, .item index => items[index]?
  | map entries, .field name => entries.get? name
  | _, _ => none

def child? (members : Members) (step : Step) : Option Members := members.viewed?.bind (·.child? step)

def part? : Members → Position → Option Members
  | members, [] => some members
  | members, step :: position => (members.child? step).bind fun child => child.part? position

theorem view_child? (members : Members) (step : Step) :
    (members.child? step).map view = members.view.child? step := by
  rw [child?, view_eq_viewed]
  cases members.viewed? with
  | none => rfl
  | some setting =>
    cases step with
    | item index =>
      cases setting with
      | list items => exact List.getElem?_map.symm
      | _ => rfl
    | field name =>
      cases setting with
      | map entries => exact (entries.get?_map view name).symm
      | _ => rfl

theorem view_part? (members : Members) (position : Position) :
    (members.part? position).map view = members.view.part? position := by
  induction position generalizing members with
  | nil => rfl
  | cons step position ih =>
    rw [part?, View.part?, ← view_child?]
    cases members.child? step with
    | none => rfl
    | some child => exact ih child

theorem Setting.child?_modifyChild (f : Members → Members) (step : Step) (setting : Setting) :
    (setting.modifyChild f step).child? step = (setting.child? step).map f := by
  cases step with
  | item index =>
    cases setting with
    | list items =>
      exact List.getElem?_modify_eq f index items
    | _ => rfl
  | field name =>
    cases setting with
    | map entries =>
      show (entries.modify name f).get? name = (entries.get? name).map f
      rw [Entries.get?_modify, if_pos rfl]
    | _ => rfl

theorem Setting.child?_modifyChild_of_ne {step other : Step} (h : step ≠ other) (f : Members → Members)
    (setting : Setting) : (setting.modifyChild f step).child? other = setting.child? other := by
  cases setting with
  | list items =>
    cases step with
    | field => rfl
    | item index =>
    cases other with
    | field => rfl
    | item index' =>
      have hne : index ≠ index' := fun heq => h (heq ▸ rfl)
      exact List.getElem?_modify_ne f items hne
  | map entries =>
    cases step with
    | item => rfl
    | field name =>
    cases other with
    | item => rfl
    | field name' =>
      have hne : name ≠ name' := fun heq => h (heq ▸ rfl)
      show (entries.modify name f).get? name' = entries.get? name'
      rw [Entries.get?_modify, if_neg hne]
  | _ => cases step <;> rfl

theorem child?_modifyChild (f : Members → Members) (step : Step) (members : Members) :
    (modifyChild f step members).child? step = (members.child? step).map f := by
  rw [child?, child?, viewed?_modifyChild]
  cases members.viewed? with
  | none => rfl
  | some setting => exact setting.child?_modifyChild f step

theorem child?_modifyChild_of_ne {step other : Step} (h : step ≠ other) (f : Members → Members) (members : Members) :
    (modifyChild f step members).child? other = members.child? other := by
  rw [child?, child?, viewed?_modifyChild]
  cases members.viewed? with
  | none => rfl
  | some setting => exact setting.child?_modifyChild_of_ne h f

end Inside

end Members

end AttributeCodec.Attribute
