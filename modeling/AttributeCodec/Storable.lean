import AttributeCodec.Datum.Decode
import AttributeCodec.Datum.Encode

namespace AttributeCodec

abbrev Decoding (δ : Type) := ExceptT Fault (StateM δ)

class Storable (δ : Type) where
  field : δ → String → Except Fault Datum
  encode : Hook → δ → Encoding
  decode : Hook → Reader → Decoding δ Unit

namespace Storable

variable {δ : Type} [Storable δ]

def toTree (hook : Hook) (stored : δ) : Except Fault Tree := (encode hook stored).tree

end Storable

instance : Storable Datum where
  field _ name := throw (.missingField name)
  encode hook datum := datum.encode hook false
  decode hook reader :=
    match reader.decode hook .any with
    | .ok datum => set datum
    | .error fault => throw fault

end AttributeCodec
