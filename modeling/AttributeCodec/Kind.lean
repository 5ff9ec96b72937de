namespace AttributeCodec

inductive Kind where
  | null
  | bool
  | int64
  | uint64
  | float64
  | bytes
  | string
  | complex128
  | list
  | map
  | unsupported
deriving DecidableEq

namespace Kind

def name : Kind → String
  | null => "null"
  | bool => "bool"
  | int64 => "int64"
  | uint64 => "uint64"
  | float64 => "float64"
  | bytes => "bytes"
  | string => "string"
  | complex128 => "complex128"
  | list => "list"
  | map => "map"
  | unsupported => "unsupported"

def isNumeric : Kind → Bool
  | int64 | uint64 | float64 => true
  | _ => false

end Kind

inductive SetType where
  | string
  | number
  | binary
deriving DecidableEq

def SetType.name : SetType → String
  | string => "string set"
  | number => "number set"
  | binary => "binary set"

end AttributeCodec
