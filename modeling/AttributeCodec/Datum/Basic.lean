import AttributeCodec.Binary64.Basic
import AttributeCodec.Entries
import AttributeCodec.Instant.Basic

namespace AttributeCodec

inductive Datum where
  | null
  | bool (value : Bool)
  | int (value : Int64)
  | uint (value : UInt64)
  | float (value : Binary64)
  | complex (re im : Binary64)
  | bytes (value : List UInt8)
  | string (text : String)
  | timestamp (instant : Instant)
  | list (items : List Datum)
  | map (entries : SortedEntries Datum)

namespace Datum

def typeName : Datum → String
  | null => "null"
  | bool _ => "bool"
  | int _ => "int64"
  | uint _ => "uint64"
  | float _ => "float64"
  | complex .. => "complex128"
  | bytes _ => "bytes"
  | string _ => "string"
  | timestamp _ => "timestamp"
  | list _ => "list"
  | map _ => "map"

mutual

def same : Datum → Datum → Bool
  | null, null => true
  | bool a, bool b => a == b
  | int a, int b => a == b
  | uint a, uint b => a == b
  | float a, float b => a.numEq b
  | complex a b, complex c d => a.numEq c && b.numEq d
  | bytes a, bytes b => a == b
  | string a, string b => a == b
  | timestamp a, timestamp b => a == b
  | list items, list others => sameItems items others
  | map entries, map others => sameEntries entries others
  | _, _ => false

def sameItems : List Datum → List Datum → Bool
  | [], [] => true
  | item :: items, other :: others => same item other && sameItems items others
  | _, _ => false

def sameEntries : SortedEntries Datum → SortedEntries Datum → Bool
  | ⟨_, _, fields⟩, ⟨_, _, others⟩ => sameFields fields others

def sameFields {names others : List String} : Fields Datum names → Fields Datum others → Bool
  | .nil, .nil => true
  | .cons name value rest, .cons name' value' rest' =>
    name == name' && same value value' && sameFields rest rest'
  | _, _ => false

end

end Datum

inductive DatumType where
  | any
  | bool
  | int
  | uint
  | float
  | complex
  | bytes
  | string
  | timestamp
  | list (element : DatumType)
  | map (element : DatumType)
deriving DecidableEq

namespace DatumType

instance : Inhabited DatumType := ⟨any⟩

def name : DatumType → String
  | any => "any"
  | bool => "bool"
  | int => "int64"
  | uint => "uint64"
  | float => "float64"
  | complex => "complex128"
  | bytes => "bytes"
  | string => "string"
  | timestamp => "timestamp"
  | list _ => "list"
  | map _ => "map"

end DatumType

end AttributeCodec
