import AttributeCodec.Base64
import AttributeCodec.Json

namespace AttributeCodec.Attribute

inductive Member where
  | binary
  | bool
  | binarySet
  | list
  | map
  | number
  | numberSet
  | null
  | string
  | stringSet
deriving DecidableEq

namespace Member

def name : Member → String
  | binary => "B"
  | bool => "BOOL"
  | binarySet => "BS"
  | list => "L"
  | map => "M"
  | number => "N"
  | numberSet => "NS"
  | null => "NULL"
  | string => "S"
  | stringSet => "SS"

def all : List Member :=
  [binary, bool, binarySet, list, map, number, numberSet, null, string, stringSet]

def ofName? (name : String) : Option Member := all.find? fun member => member.name == name

end Member

inductive Malformed where
  | shape
  | base64 (fault : Base64.Fault)
deriving DecidableEq

def Malformed.message? : Malformed → Option String
  | shape => none
  | base64 fault => some s!"invalid base64: {fault.message}"

def readBool : Json → Except Malformed Bool
  | .bool b => .ok b
  | _ => .error .shape

def readText : Json → Except Malformed String
  | .string text => .ok text
  | _ => .error .shape

def readTexts : Json → Except Malformed (List String)
  | .array items => items.mapM readText
  | _ => .error .shape

def ofBase64 (text : String) : Except Malformed (List UInt8) :=
  (Base64.read text).mapError .base64

def readBinary (value : Json) : Except Malformed (List UInt8) := do ofBase64 (← readText value)

def readBinaries (value : Json) : Except Malformed (List (List UInt8)) := do
  (← readTexts value).mapM ofBase64

def writeTexts (texts : List String) : Json := .array (texts.map .string)

def writeBinary (bytes : List UInt8) : Json := .string (Base64.write bytes)

def writeBinaries (items : List (List UInt8)) : Json := .array (items.map writeBinary)

end AttributeCodec.Attribute
