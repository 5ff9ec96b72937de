import AttributeCodec.Attribute.Form
import AttributeCodec.Reader

namespace AttributeCodec.Attribute

namespace View

def numberReader (text : String) : Reader :=
  let number := Number.read text
  let kind := match number with
    | .ok n => n.kind
    | .error _ => .float64
  { Reader.ofKind kind with
    int := do (← number).toInt64
    uint := do (← number).toUInt64
    float := do return (← number).toBinary64 }

mutual

def reader : View → Reader
  | null => .null
  | bool value => { Reader.ofKind .bool with bool := .ok value }
  | number text => numberReader text
  | binary bytes => { Reader.ofKind .bytes with bytes := .ok bytes }
  | string text =>
    if text.isEmpty then .null else { Reader.ofKind .string with string := .ok text }
  | list items => .ofItems (readerItems items)
  | map entries => .ofEntries (readerEntries entries)
  | set type => .ofSet type
  | empty => .refusing .unsupported fun _ => .emptyAttribute

def readerItems : List View → List Reader
  | [] => []
  | item :: items => reader item :: readerItems items

def readerEntries : Entries View → Entries Reader
  | ⟨names, distinct, fields⟩ => ⟨names, distinct, readerFields fields⟩

def readerFields {names : List String} : Fields View names → Fields Reader names
  | .nil => .nil
  | .cons name value rest => .cons name (reader value) (readerFields rest)

end

end View

def reader {α : Type} [Form α] (attr : α) : Reader := (Form.view attr).reader

end AttributeCodec.Attribute
