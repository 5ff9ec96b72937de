import AttributeCodec.Attribute.Form
import AttributeCodec.Tree.Basic

namespace AttributeCodec.Attribute

namespace View

mutual

def tree : View → Except Fault Tree
  | null => return .null
  | bool value => return .bool value
  | number text => return .number (← Number.read text)
  | binary bytes => return .bytes bytes
  | string text => return .ofText text
  | list items => return .list (← treeItems items)
  | map entries => return .map (← treeEntries entries)
  | set type => return .set type
  | empty => throw .emptyAttribute

def treeItems : List View → Except Fault (List Tree)
  | [] => return []
  | item :: items => return (← tree item) :: (← treeItems items)

def treeEntries : Entries View → Except Fault (Entries Tree)
  | ⟨names, distinct, fields⟩ => return ⟨names, distinct, ← treeFields fields⟩

def treeFields {names : List String} : Fields View names → Except Fault (Fields Tree names)
  | .nil => return .nil
  | .cons name value rest => return .cons name (← tree value) (← treeFields rest)

end

end View

variable {α : Type} [Form α]

def tree (attr : α) : Except Fault Tree := (Form.view attr).tree

def itemFields {names : List String} : Fields α names → Except Fault (Fields Tree names)
  | .nil => return .nil
  | .cons name value rest => return .cons name (← tree value) (← itemFields rest)

def itemTree (item : Entries α) : Except Fault Tree :=
  return .map ⟨item.names, item.distinct, ← itemFields item.fields⟩

end AttributeCodec.Attribute
