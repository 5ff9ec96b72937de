import AttributeCodec.Entries

namespace AttributeCodec

inductive Json where
  | null
  | bool (value : Bool)
  | number (literal : String)
  | string (text : String)
  | array (items : List Json)
  | object (members : Entries Json)

end AttributeCodec
