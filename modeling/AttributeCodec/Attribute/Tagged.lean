import AttributeCodec.Attribute.Member
import AttributeCodec.Attribute.View

namespace AttributeCodec.Attribute

inductive Tagged where
  | binary (bytes : List UInt8)
  | bool (value : Bool)
  | binarySet (items : List (List UInt8))
  | list (items : List Tagged)
  | map (entries : Entries Tagged)
  | number (text : String)
  | numberSet (texts : List String)
  | null (value : Bool)
  | string (text : String)
  | stringSet (texts : List String)

namespace Tagged

mutual

def view : Tagged → View
  | null _ => .null
  | bool value => .bool value
  | number text => .number text
  | binary bytes => .binary bytes
  | string text => .string text
  | list items => .list (viewItems items)
  | map entries => .map (viewEntries entries)
  | stringSet _ => .set .string
  | numberSet _ => .set .number
  | binarySet _ => .set .binary

def viewItems : List Tagged → List View
  | [] => []
  | item :: items => view item :: viewItems items

def viewEntries : Entries Tagged → Entries View
  | ⟨names, distinct, fields⟩ => ⟨names, distinct, viewFields fields⟩

def viewFields {names : List String} : Fields Tagged names → Fields View names
  | .nil => .nil
  | .cons name value rest => .cons name (view value) (viewFields rest)

end

def written (member : Member) (value : Json) : Json := .object (.singleton member.name value)

mutual

def write : Tagged → Json
  | binary bytes => written .binary (writeBinary bytes)
  | bool value => written .bool (.bool value)
  | binarySet items => written .binarySet (writeBinaries items)
  | list items => written .list (.array (writeItems items))
  | map entries => written .map (.object (writeEntries entries))
  | number text => written .number (.string text)
  | numberSet texts => written .numberSet (writeTexts texts)
  | null value => written .null (.bool value)
  | string text => written .string (.string text)
  | stringSet texts => written .stringSet (writeTexts texts)

def writeItems : List Tagged → List Json
  | [] => []
  | item :: items => write item :: writeItems items

def writeEntries : Entries Tagged → Entries Json
  | ⟨names, distinct, fields⟩ => ⟨names, distinct, writeFields fields⟩

def writeFields {names : List String} : Fields Tagged names → Fields Json names
  | .nil => .nil
  | .cons name value rest => .cons name (write value) (writeFields rest)

end

def readLeaf (member : Member) (value : Json) : Except Malformed Tagged :=
  match member with
  | .binary => return binary (← readBinary value)
  | .bool => return bool (← readBool value)
  | .binarySet => return binarySet (← readBinaries value)
  | .number => return number (← readText value)
  | .numberSet => return numberSet (← readTexts value)
  | .null => return null (← readBool value)
  | .string => return string (← readText value)
  | .stringSet => return stringSet (← readTexts value)
  | .list | .map => throw .shape

mutual

def read : Json → Except Malformed Tagged
  | .object members => readEntriesOf members
  | _ => throw .shape

def readEntriesOf : Entries Json → Except Malformed Tagged
  | ⟨_, _, fields⟩ => readOnly fields

def readOnly {names : List String} : Fields Json names → Except Malformed Tagged
  | .cons name value .nil =>
    match Member.ofName? name with
    | some member => readMember member value
    | none => throw .shape
  | _ => throw .shape

def readMember : Member → Json → Except Malformed Tagged
  | .list, .array items => return list (← readItems items)
  | .map, .object entries => return map (← readEntries entries)
  | member, value => readLeaf member value

def readItems : List Json → Except Malformed (List Tagged)
  | [] => return []
  | item :: items => return (← read item) :: (← readItems items)

def readEntries : Entries Json → Except Malformed (Entries Tagged)
  | ⟨names, distinct, fields⟩ => return ⟨names, distinct, ← readFields fields⟩

def readFields {names : List String} : Fields Json names → Except Malformed (Fields Tagged names)
  | .nil => return .nil
  | .cons name value rest => return .cons name (← read value) (← readFields rest)

end

end Tagged

end AttributeCodec.Attribute
