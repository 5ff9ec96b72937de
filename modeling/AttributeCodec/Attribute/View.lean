import AttributeCodec.Entries
import AttributeCodec.Kind

/-! What decoding sees of an attribute: the one member that counts, and of a set only its type. -/

namespace AttributeCodec.Attribute

inductive View where
  | null
  | bool (value : Bool)
  | number (text : String)
  | binary (bytes : List UInt8)
  | string (text : String)
  | list (items : List View)
  | map (entries : Entries View)
  | set (type : SetType)
  | empty

end AttributeCodec.Attribute
