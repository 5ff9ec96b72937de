import AttributeCodec.Entries
import AttributeCodec.Number

/-! The tree between a document and an attribute. Through `Tree.ofText` empty text becomes null. -/

namespace AttributeCodec

inductive Tree where
  | null
  | bool (value : Bool)
  | number (value : Number)
  | bytes (value : List UInt8)
  | string (text : String)
  | complex (re im : Binary64)
  | list (items : List Tree)
  | map (entries : Entries Tree)
  | set (type : SetType)

namespace Tree

def ofText (text : String) : Tree := if text.isEmpty then null else string text

def kind : Tree → Kind
  | null => .null
  | bool _ => .bool
  | number n => n.kind
  | bytes _ => .bytes
  | string _ => .string
  | complex .. => .complex128
  | list _ => .list
  | map _ => .map
  | set _ => .unsupported

def isNull : Tree → Bool
  | null => true
  | _ => false

def items? : Tree → Option (List Tree)
  | list items => some items
  | _ => none

def entries? : Tree → Option (Entries Tree)
  | map entries => some entries
  | _ => none

def set? : Tree → Option SetType
  | set type => some type
  | _ => none

mutual

def same : Tree → Tree → Bool
  | null, null => true
  | bool a, bool b => a == b
  | number a, number b => a.numEq b
  | bytes a, bytes b => a == b
  | string a, string b => a == b
  | complex a b, complex c d => a.numEq c && b.numEq d
  | list items, list others => sameItems items others
  | map entries, map others =>
    entries.size == others.size && entriesIn others entries
  | set a, set b => a == b
  | _, _ => false

def sameItems : List Tree → List Tree → Bool
  | [], [] => true
  | item :: items, other :: others => same item other && sameItems items others
  | _, _ => false

def entriesIn (others : Entries Tree) : Entries Tree → Bool
  | ⟨_, _, fields⟩ => fieldsIn others fields

def fieldsIn (others : Entries Tree) {names : List String} : Fields Tree names → Bool
  | .nil => true
  | .cons name value rest =>
    (match others.get? name with
      | some other => same value other
      | none => false) && fieldsIn others rest

end

end Tree

end AttributeCodec
