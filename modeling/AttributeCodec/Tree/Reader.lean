import AttributeCodec.Reader
import AttributeCodec.Tree.Basic

namespace AttributeCodec

def Number.reader (n : Number) : Reader :=
  { Reader.ofKind n.kind with int := n.toInt64, uint := n.toUInt64, float := .ok n.toBinary64 }

namespace Tree

mutual

def reader : Tree → Reader
  | null => .null
  | bool b => { Reader.ofKind .bool with bool := .ok b }
  | number n => n.reader
  | bytes b => { Reader.ofKind .bytes with bytes := .ok b }
  | string text => { Reader.ofKind .string with string := .ok text }
  | complex re im => { Reader.ofKind .complex128 with complex := .ok (re, im) }
  | list items => .ofItems (itemReaders items)
  | map entries => .ofEntries (entryReaders entries)
  | set type => .ofSet type

def itemReaders : List Tree → List Reader
  | [] => []
  | item :: items => reader item :: itemReaders items

def entryReaders : Entries Tree → Entries Reader
  | ⟨names, distinct, fields⟩ => ⟨names, distinct, fieldReaders fields⟩

def fieldReaders {names : List String} : Fields Tree names → Fields Reader names
  | .nil => .nil
  | .cons name value rest => .cons name (reader value) (fieldReaders rest)

end

end Tree

end AttributeCodec
