import AttributeCodec.Attribute.Form
import AttributeCodec.Tree.Basic

namespace AttributeCodec

open Attribute

namespace Tree

variable {α : Type} [Form α]

mutual

def toAttribute : Tree → Except Fault α
  | null => return Form.null
  | bool value => return Form.bool value
  | number n => return Form.number n.text
  | bytes b => return Form.binary b
  | string text => return if text.isEmpty then Form.null else Form.string text
  | complex re im => return Form.list [Form.number re.text, Form.number im.text]
  | list items => return Form.list (← attributeItems items)
  | map entries => return Form.map (← attributeEntries entries)
  | set type => throw (.unknownKind (set type).kind)

def attributeItems : List Tree → Except Fault (List α)
  | [] => return []
  | item :: items => return (← toAttribute item) :: (← attributeItems items)

def attributeEntries : Entries Tree → Except Fault (Entries α)
  | ⟨names, distinct, fields⟩ => return ⟨names, distinct, ← attributeFields fields⟩

def attributeFields {names : List String} : Fields Tree names → Except Fault (Fields α names)
  | .nil => return .nil
  | .cons name value rest => return .cons name (← toAttribute value) (← attributeFields rest)

end

def toItem (tree : Tree) : Except Fault (Entries α) :=
  match tree with
  | map entries => attributeEntries entries
  | other => throw (.notMap other.kind)

end Tree

end AttributeCodec
