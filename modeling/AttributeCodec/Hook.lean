import AttributeCodec.Datum.Basic
import AttributeCodec.Instant.Text
import AttributeCodec.Reader
import AttributeCodec.Script.Basic

/-! A hook is asked before a value is encoded or decoded in the general way. -/

namespace AttributeCodec

inductive Verdict where
  | refuse (fault : Fault)
  | accept
  | decline

structure Hook where
  encode : Datum → Script × Verdict
  encode_inRange : ∀ datum, (encode datum).1.InRange
  decode : DatumType → Reader → Except Fault (Option Datum)

namespace Instant

def read (text : String) : Except Fault Instant :=
  (parse text).mapError fun fault => .invalidTimestamp text fault.message

end Instant

namespace Hook

def none : Hook where
  encode _ := ([], .decline)
  encode_inRange _ := rfl
  decode _ _ := return Option.none

def encodeTimestamp : Datum → Script × Verdict
  | .timestamp instant => ([.string instant.text], .accept)
  | _ => ([], .decline)

def decodeTimestamp (type : DatumType) (reader : Reader) : Except Fault (Option Datum) :=
  if type = .timestamp then
    match reader.string with
    | .ok text => return some (.timestamp (← Instant.read text))
    | .error _ => throw (.mismatch "string field for timestamp" reader.kind.name)
  else return Option.none

def timestamps : Hook where
  encode := encodeTimestamp
  encode_inRange datum := by cases datum <;> rfl
  decode := decodeTimestamp

end Hook

end AttributeCodec
