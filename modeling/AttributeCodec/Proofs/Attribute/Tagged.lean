import AttributeCodec.Proofs.Attribute.Lawful
import AttributeCodec.Proofs.Attribute.Settings
import Mathlib.Data.Set.List

namespace AttributeCodec.Attribute.Tagged

def children : Tagged → List Tagged
  | list items => items
  | map entries => entries.toList.map Prod.snd
  | _ => []

@[induction_eliminator]
theorem induction {motive : Tagged → Prop}
    (step : ∀ attr : Tagged, (∀ child ∈ attr.children, motive child) → motive attr) (attr : Tagged) :
    motive attr := by
  refine Tagged.rec (motive_1 := motive) (motive_2 := fun items => ∀ item ∈ items, motive item)
    (motive_3 := fun entries => ∀ entry ∈ entries.toList, motive entry.2)
    (motive_4 := fun _ fields => ∀ entry ∈ fields.toList, motive entry.2)
    ?_ ?_ ?_ (fun _ hitems => step _ hitems) (fun _ hentries => step _ (List.forall_mem_map.mpr hentries))
    ?_ ?_ ?_ ?_ ?_ (by simp) (fun _ _ hitem hitems => List.forall_mem_cons.mpr ⟨hitem, hitems⟩)
    (fun _ _ _ hfields => hfields) (by simp [Fields.toList])
    (fun _ _ _ hvalue hrest => List.forall_mem_cons.mpr ⟨hvalue, hrest⟩) attr
  all_goals
    intro value
    apply step
    simp [children]

mutual

def nodes : Tagged → List Tagged
  | list items => list items :: nodesOfItems items
  | map entries => map entries :: nodesOfEntries entries
  | attr => [attr]

def nodesOfItems : List Tagged → List Tagged
  | [] => []
  | item :: items => nodes item ++ nodesOfItems items

def nodesOfEntries : Entries Tagged → List Tagged
  | ⟨_, _, fields⟩ => nodesOfFields fields

def nodesOfFields {names : List String} : Fields Tagged names → List Tagged
  | .nil => []
  | .cons _ value rest => nodes value ++ nodesOfFields rest

end

theorem nodesOfItems_eq_flatMap (items : List Tagged) : nodesOfItems items = items.flatMap nodes := by
  induction items with
  | nil => rfl
  | cons item items ih => rw [nodesOfItems, ih, List.flatMap_cons]

theorem nodesOfFields_eq_flatMap {names : List String} (fields : Fields Tagged names) :
    nodesOfFields fields = fields.toList.flatMap fun entry => entry.2.nodes := by
  induction fields with
  | nil => rfl
  | cons name value rest ih => rw [nodesOfFields, ih, Fields.toList, List.flatMap_cons]

theorem forall_nodes_iff {p : Tagged → Prop} {attr : Tagged} :
    (∀ node ∈ attr.nodes, p node) ↔ p attr ∧ ∀ child ∈ attr.children, ∀ node ∈ child.nodes, p node := by
  cases attr with
  | list items =>
    rw [nodes, List.forall_mem_cons, nodesOfItems_eq_flatMap, List.forall_mem_flatMap]
    rfl
  | map entries =>
    rw [nodes, List.forall_mem_cons, nodesOfEntries, nodesOfFields_eq_flatMap, List.forall_mem_flatMap,
      children, List.forall_mem_map]
    rfl
  | _ => simp [nodes, children]

mutual

def toMembers : Tagged → Members
  | binary bytes => { binary? := some bytes }
  | bool value => { bool? := some value }
  | binarySet items => { binarySet? := some items }
  | list items => { list? := some (itemsToMembers items) }
  | map entries => { map? := some (entriesToMembers entries) }
  | number text => { number? := some text }
  | numberSet texts => { numberSet? := some texts }
  | null value => { null? := some value }
  | string text => { string? := some text }
  | stringSet texts => { stringSet? := some texts }

def itemsToMembers : List Tagged → List Members
  | [] => []
  | item :: items => toMembers item :: itemsToMembers items

def entriesToMembers : Entries Tagged → Entries Members
  | ⟨names, distinct, fields⟩ => ⟨names, distinct, fieldsToMembers fields⟩

def fieldsToMembers {names : List String} : Fields Tagged names → Fields Members names
  | .nil => .nil
  | .cons name value rest => .cons name (toMembers value) (fieldsToMembers rest)

end

def setting : Tagged → Members.Setting
  | binary bytes => .binary bytes
  | bool value => .bool value
  | binarySet items => .binarySet items
  | list items => .list (items.map toMembers)
  | map entries => .map (entries.map toMembers)
  | number text => .number text
  | numberSet texts => .numberSet texts
  | null value => .null value
  | string text => .string text
  | stringSet texts => .stringSet texts

theorem itemsToMembers_eq_map (items : List Tagged) : itemsToMembers items = items.map toMembers := by
  induction items with
  | nil => rfl
  | cons item items ih => rw [itemsToMembers, ih, List.map_cons]

theorem fieldsToMembers_eq_map {names : List String} (fields : Fields Tagged names) :
    fieldsToMembers fields = fields.map toMembers := by
  induction fields with
  | nil => rfl
  | cons name value rest ih => rw [fieldsToMembers, ih, Fields.map]

theorem toMembers_list (items : List Tagged) :
    toMembers (Form.list items) = Form.list (items.map toMembers) := by
  show (list items).toMembers = _
  rw [toMembers, itemsToMembers_eq_map]
  rfl

theorem toMembers_map (entries : Entries Tagged) :
    toMembers (Form.map entries) = Form.map (entries.map toMembers) := by
  show (map entries).toMembers = _
  rw [toMembers, entriesToMembers, fieldsToMembers_eq_map]
  rfl

theorem toMembers_eq_set (attr : Tagged) : attr.toMembers = ({} : Members).set attr.setting := by
  cases attr with
  | list items => exact toMembers_list items
  | map entries => exact toMembers_map entries
  | _ => rfl

theorem children_setting (attr : Tagged) : attr.setting.children = attr.children.map toMembers := by
  cases attr with
  | map entries =>
    rw [setting, Members.Setting.children, Entries.toList_map, List.map_map, children, List.map_map]
    rfl
  | _ => rfl

theorem settings_toMembers (attr : Tagged) : attr.toMembers.settings = [attr.setting] :=
  Members.eq_set_empty_iff.mp attr.toMembers_eq_set

theorem view_toMembers (attr : Tagged) : Form.view attr.toMembers = Form.view attr := by
  induction attr with
  | step attr ih =>
    cases attr with
    | list items =>
      have hitems : (items.map toMembers).map Form.view = items.map Form.view := by
        rw [List.map_map]
        exact List.map_congr_left ih
      show Form.view (toMembers (Form.list items)) = Form.view (Form.list items)
      rw [toMembers_list, LawfulForm.view_list, LawfulForm.view_list, hitems]
    | map entries =>
      have hentries : (entries.map toMembers).map Form.view = entries.map Form.view := by
        rw [Entries.map_map]
        exact Entries.map_congr_left (List.forall_mem_map.mp ih)
      show Form.view (toMembers (Form.map entries)) = Form.view (Form.map entries)
      rw [toMembers_map, LawfulForm.view_map, LawfulForm.view_map, hentries]
    | _ => rfl

theorem exists_toMembers {members : Members} (h : ∀ node ∈ members.nodes, node.settings.length = 1) :
    ∃ attr : Tagged, attr.toMembers = members := by
  induction members with
  | step members ih =>
    obtain ⟨hone, hchildren⟩ := Members.forall_nodes_iff.mp h
    obtain ⟨setting, hsetting⟩ := List.length_eq_one_iff.mp hone
    rw [hsetting, List.forall_mem_singleton] at ih hchildren
    have hinside : ∀ child ∈ setting.children, ∃ attr : Tagged, attr.toMembers = child :=
      fun child hchild => ih child hchild (hchildren child hchild)
    rw [Members.eq_set_empty_iff.mpr hsetting]
    cases setting with
    | binary bytes => exact ⟨binary bytes, rfl⟩
    | bool value => exact ⟨bool value, rfl⟩
    | binarySet items => exact ⟨binarySet items, rfl⟩
    | list items =>
      have hrange : items ∈ Set.range (List.map toMembers) := by
        rw [Set.range_list_map]
        exact hinside
      obtain ⟨others, rfl⟩ := hrange
      exact ⟨list others, toMembers_list others⟩
    | map entries =>
      obtain ⟨others, rfl⟩ : ∃ others, Entries.map toMembers others = entries :=
        Entries.exists_map_eq fun entry hentry => hinside entry.2 (List.mem_map_of_mem hentry)
      exact ⟨map others, toMembers_map others⟩
    | number text => exact ⟨number text, rfl⟩
    | numberSet texts => exact ⟨numberSet texts, rfl⟩
    | null value => exact ⟨null value, rfl⟩
    | string text => exact ⟨string text, rfl⟩
    | stringSet texts => exact ⟨stringSet texts, rfl⟩

end AttributeCodec.Attribute.Tagged
