import AttributeCodec.Kind
import AttributeCodec.Text.Quoted

namespace AttributeCodec

inductive Fault where
  | missingField (name : String)
  | unknownKind (kind : Kind)
  | notMap (kind : Kind)
  | invalidNumber (text : String)
  | unsupportedSet (type : SetType)
  | mismatch (expected actual : String)
  | invalidTimestamp (text reason : String)
  | incomplete (detail : String)
  | hookSilent (type : String)
  | noEncoding (type : String)
  | emptyAttribute
  | noKeys
deriving DecidableEq

namespace Fault

def message : Fault → String
  | missingField name => s!"field not found: {name}"
  | unknownKind kind => s!"invalid argument: unknown type to encode {kind.name}"
  | notMap kind => s!"invalid argument: incorrect type to encode {kind.name}, not map"
  | invalidNumber text => s!"invalid number: {Text.quoted text}"
  | unsupportedSet type =>
    s!"unsupported type {type.name}: DynamoDB set types (string set, number set, binary set) are not decoded"
  | mismatch expected actual => s!"type mismatch: expected {expected}, got {actual}"
  | invalidTimestamp text reason => s!"invalid timestamp {Text.quoted text}: {reason}"
  | incomplete detail => s!"incomplete value: {detail}"
  | hookSilent type => s!"special encoder for {type} accepted the value but encoded nothing"
  | noEncoding type => s!"no encoding for {type} values"
  | emptyAttribute => "attribute value has no member set"
  | noKeys => "no key schema configured"

def isInvalidArgument : Fault → Bool
  | unknownKind _ | notMap _ | noEncoding _ => true
  | _ => false

def isUnsupported : Fault → Bool
  | unsupportedSet _ => true
  | _ => false

def isNotFound : Fault → Bool
  | missingField _ => true
  | _ => false

end Fault

end AttributeCodec
