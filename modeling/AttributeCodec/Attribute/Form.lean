import AttributeCodec.Attribute.Members
import AttributeCodec.Attribute.Tagged

/-! The two forms of an attribute are built from the same members and seen through the same view. -/

namespace AttributeCodec.Attribute

class Form (α : Type) where
  version : String
  null : α
  bool : Bool → α
  number : String → α
  binary : List UInt8 → α
  string : String → α
  list : List α → α
  map : Entries α → α
  view : α → View
  read : Json → Except Malformed α
  write : α → Json

instance : Form Members where
  version := "v1"
  null := { null? := some true }
  bool value := { bool? := some value }
  number text := { number? := some text }
  binary bytes := { binary? := some bytes }
  string text := { string? := some text }
  list items := { list? := some items }
  map entries := { map? := some entries }
  view := Members.view
  read := Members.read
  write := Members.write

instance : Form Tagged where
  version := "v2"
  null := .null true
  bool := .bool
  number := .number
  binary := .binary
  string := .string
  list := .list
  map := .map
  view := Tagged.view
  read := Tagged.read
  write := Tagged.write

end AttributeCodec.Attribute
