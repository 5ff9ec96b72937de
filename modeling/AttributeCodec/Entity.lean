import AttributeCodec.Storable

namespace AttributeCodec

structure Entity where
  fields : SortedEntries Datum := .empty
  types : SortedEntries DatumType := .empty

namespace Entity

def set (entity : Entity) (name : String) (value : Datum) : Entity :=
  { entity with fields := entity.fields.insert name value }

def declare (entity : Entity) (name : String) (type : DatumType) : Entity :=
  { entity with types := entity.types.insert name type }

def get? (entity : Entity) (name : String) : Option Datum := entity.fields.get? name

def size (entity : Entity) : Nat := entity.fields.size

def typeOf (entity : Entity) (name : String) : DatumType := (entity.types.get? name).getD .any

def field (entity : Entity) (name : String) : Except Fault Datum :=
  match entity.get? name with
  | some value => return value
  | none => throw (.missingField name)

def encode (hook : Hook) (entity : Entity) : Encoding :=
  let (fills, result) := Datum.genericEntries hook entity.fields
  ([.map entity.size fills], result)

def decodedFields (hook : Hook) (entity : Entity) (reader : Reader) :
    Except Fault (SortedEntries Datum) := do
  match reader.set? with
  | some set => throw (.unsupportedSet set)
  | none => Reader.decodeEntries hook entity.typeOf (← reader.map)

def decode (hook : Hook) (reader : Reader) : Decoding Entity Unit := do
  let entity ← get
  match entity.decodedFields hook reader with
  | .ok decoded => MonadState.set { entity with fields := entity.fields.overlay decoded }
  | .error fault => throw fault

instance : Storable Entity where
  field := field
  encode := encode
  decode := decode

end Entity

end AttributeCodec
