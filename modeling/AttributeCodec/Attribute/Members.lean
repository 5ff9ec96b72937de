import AttributeCodec.Attribute.Member
import AttributeCodec.Attribute.View

/-! An attribute as a record of optional members. Of several the first of null, bool, number, binary, string,
list, map and the sets counts. -/

namespace AttributeCodec.Attribute

structure Members where
  binary? : Option (List UInt8) := none
  bool? : Option Bool := none
  binarySet? : Option (List (List UInt8)) := none
  list? : Option (List Members) := none
  map? : Option (Entries Members) := none
  number? : Option String := none
  numberSet? : Option (List String) := none
  null? : Option Bool := none
  string? : Option String := none
  stringSet? : Option (List String) := none

namespace Members

inductive Setting where
  | binary (bytes : List UInt8)
  | bool (value : Bool)
  | binarySet (items : List (List UInt8))
  | list (items : List Members)
  | map (entries : Entries Members)
  | number (text : String)
  | numberSet (texts : List String)
  | null (value : Bool)
  | string (text : String)
  | stringSet (texts : List String)

def set (members : Members) : Setting → Members
  | .binary bytes => { members with binary? := some bytes }
  | .bool value => { members with bool? := some value }
  | .binarySet items => { members with binarySet? := some items }
  | .list items => { members with list? := some items }
  | .map entries => { members with map? := some entries }
  | .number text => { members with number? := some text }
  | .numberSet texts => { members with numberSet? := some texts }
  | .null value => { members with null? := some value }
  | .string text => { members with string? := some text }
  | .stringSet texts => { members with stringSet? := some texts }

mutual

def view : Members → View
  | { null? := some _, .. } => .null
  | { bool? := some value, .. } => .bool value
  | { number? := some text, .. } => .number text
  | { binary? := some bytes, .. } => .binary bytes
  | { string? := some text, .. } => .string text
  | { list? := some items, .. } => .list (viewItems items)
  | { map? := some entries, .. } => .map (viewEntries entries)
  | { stringSet? := some _, .. } => .set .string
  | { numberSet? := some _, .. } => .set .number
  | { binarySet? := some _, .. } => .set .binary
  | _ => .empty

def viewItems : List Members → List View
  | [] => []
  | item :: items => view item :: viewItems items

def viewEntries : Entries Members → Entries View
  | ⟨names, distinct, fields⟩ => ⟨names, distinct, viewFields fields⟩

def viewFields {names : List String} : Fields Members names → Fields View names
  | .nil => .nil
  | .cons name value rest => .cons name (view value) (viewFields rest)

end

mutual

def write : Members → Json
  | ⟨binary?, bool?, binarySet?, list?, map?, number?, numberSet?, null?, string?, stringSet?⟩ =>
    .object (.ofPresent
      [(Member.binary.name, binary?.map writeBinary),
        (Member.bool.name, bool?.map .bool),
        (Member.binarySet.name, binarySet?.map writeBinaries),
        (Member.list.name, writeList? list?),
        (Member.map.name, writeMap? map?),
        (Member.number.name, number?.map .string),
        (Member.numberSet.name, numberSet?.map writeTexts),
        (Member.null.name, null?.map .bool),
        (Member.string.name, string?.map .string),
        (Member.stringSet.name, stringSet?.map writeTexts)]
      (show (Member.all.map Member.name).Nodup by decide))

def writeList? : Option (List Members) → Option Json
  | none => none
  | some items => some (.array (writeItems items))

def writeMap? : Option (Entries Members) → Option Json
  | none => none
  | some entries => some (.object (writeEntries entries))

def writeItems : List Members → List Json
  | [] => []
  | item :: items => write item :: writeItems items

def writeEntries : Entries Members → Entries Json
  | ⟨names, distinct, fields⟩ => ⟨names, distinct, writeFields fields⟩

def writeFields {names : List String} : Fields Members names → Fields Json names
  | .nil => .nil
  | .cons name value rest => .cons name (write value) (writeFields rest)

end

def readLeaf (members : Members) (member : Member) (value : Json) : Except Malformed Members :=
  match member with
  | .binary => return members.set (.binary (← readBinary value))
  | .bool => return members.set (.bool (← readBool value))
  | .binarySet => return members.set (.binarySet (← readBinaries value))
  | .number => return members.set (.number (← readText value))
  | .numberSet => return members.set (.numberSet (← readTexts value))
  | .null => return members.set (.null (← readBool value))
  | .string => return members.set (.string (← readText value))
  | .stringSet => return members.set (.stringSet (← readTexts value))
  | .list | .map => throw .shape

mutual

/-- Members by name, others ignored, or by position in the order of the names. -/
def read : Json → Except Malformed Members
  | .object members => readEntriesOf members
  | .array values => readPositional {} Member.all values
  | _ => throw .shape

def readEntriesOf : Entries Json → Except Malformed Members
  | ⟨_, _, fields⟩ => readNamed {} fields

def readNamed (members : Members) {names : List String} :
    Fields Json names → Except Malformed Members
  | .nil => return members
  | .cons name value rest => do
    match Member.ofName? name with
    | some member => readNamed (← readMember members member value) rest
    | none => readNamed members rest

def readPositional (members : Members) : List Member → List Json → Except Malformed Members
  | _, [] => return members
  | [], _ :: _ => throw .shape
  | member :: rest, value :: values => do
    readPositional (← readMember members member value) rest values

def readMember (members : Members) : Member → Json → Except Malformed Members
  | _, .null => return members
  | .list, .array items => return members.set (.list (← readItems items))
  | .map, .object entries => return members.set (.map (← readEntries entries))
  | member, value => readLeaf members member value

def readItems : List Json → Except Malformed (List Members)
  | [] => return []
  | item :: items => return (← read item) :: (← readItems items)

def readEntries : Entries Json → Except Malformed (Entries Members)
  | ⟨names, distinct, fields⟩ => return ⟨names, distinct, ← readFields fields⟩

def readFields {names : List String} : Fields Json names → Except Malformed (Fields Members names)
  | .nil => return .nil
  | .cons name value rest => return .cons name (← read value) (← readFields rest)

end

end Members

end AttributeCodec.Attribute
