import AttributeCodec.Attribute.Form
import AttributeCodec.Proofs.Traversal

namespace AttributeCodec.Attribute

class LawfulForm (α : Type) [Form α] : Prop where
  view_null : Form.view (Form.null : α) = .null
  view_bool (value : Bool) : Form.view (Form.bool value : α) = .bool value
  view_number (text : String) : Form.view (Form.number text : α) = .number text
  view_binary (bytes : List UInt8) : Form.view (Form.binary bytes : α) = .binary bytes
  view_string (text : String) : Form.view (Form.string text : α) = .string text
  view_list (items : List α) : Form.view (Form.list items) = .list (items.map Form.view)
  view_map (entries : Entries α) : Form.view (Form.map entries) = .map (entries.map Form.view)

namespace Members

theorem viewItems_eq_map (items : List Members) : viewItems items = items.map view := by
  induction items with
  | nil => rfl
  | cons item items ih => rw [viewItems, ih, List.map_cons]

theorem viewFields_eq_map {names : List String} (fields : Fields Members names) :
    viewFields fields = fields.map view := by
  induction fields with
  | nil => rfl
  | cons name value rest ih => rw [viewFields, ih, Fields.map]

theorem viewEntries_eq_map (entries : Entries Members) : viewEntries entries = entries.map view := by
  rw [viewEntries, viewFields_eq_map, Entries.map]

instance : LawfulForm Members where
  view_null := rfl
  view_bool _ := rfl
  view_number _ := rfl
  view_binary _ := rfl
  view_string _ := rfl
  view_list items := by
    show View.list (viewItems items) = _
    rw [viewItems_eq_map]
    rfl
  view_map entries := by
    show View.map (viewEntries entries) = _
    rw [viewEntries_eq_map]
    rfl

end Members

namespace Tagged

theorem viewItems_eq_map (items : List Tagged) : viewItems items = items.map view := by
  induction items with
  | nil => rfl
  | cons item items ih => rw [viewItems, ih, List.map_cons]

theorem viewFields_eq_map {names : List String} (fields : Fields Tagged names) :
    viewFields fields = fields.map view := by
  induction fields with
  | nil => rfl
  | cons name value rest ih => rw [viewFields, ih, Fields.map]

theorem viewEntries_eq_map (entries : Entries Tagged) : viewEntries entries = entries.map view := by
  rw [viewEntries, viewFields_eq_map, Entries.map]

instance : LawfulForm Tagged where
  view_null := rfl
  view_bool _ := rfl
  view_number _ := rfl
  view_binary _ := rfl
  view_string _ := rfl
  view_list items := by
    show View.list (viewItems items) = _
    rw [viewItems_eq_map]
    rfl
  view_map entries := by
    show View.map (viewEntries entries) = _
    rw [viewEntries_eq_map]
    rfl

end Tagged

end AttributeCodec.Attribute
