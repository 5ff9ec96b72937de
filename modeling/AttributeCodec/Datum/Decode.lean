import AttributeCodec.Hook

/-! A null node reads as the zero of a scalar type and as null for bytes, lists and maps. -/

namespace AttributeCodec.Reader

def consult (hook : Hook) (type : DatumType) (reader : Reader) (general : Except Fault Datum) :
    Except Fault Datum :=
  match reader.set? with
  | some set => throw (.unsupportedSet set)
  | none => do
    match ← hook.decode type reader with
    | some datum => return datum
    | none => general

structure Children where
  items : DatumType → Except Fault (List Datum)
  entries : DatumType → Except Fault (SortedEntries Datum)

def readTyped (reader : Reader) (children : Children) : DatumType → Except Fault Datum
  | .any => throw (.mismatch DatumType.any.name reader.kind.name)
  | .bool => if reader.isNull then return .bool false else return .bool (← reader.bool)
  | .int => if reader.isNull then return .int 0 else return .int (← reader.int)
  | .uint => if reader.isNull then return .uint 0 else return .uint (← reader.uint)
  | .float => if reader.isNull then return .float .zero else return .float (← reader.float)
  | .complex =>
    if reader.isNull then return .complex .zero .zero
    else do
      let (re, im) ← reader.complex
      return .complex re im
  | .bytes => if reader.isNull then return .null else return .bytes (← reader.bytes)
  | .string => if reader.isNull then return .string "" else return .string (← reader.string)
  | .timestamp => throw (.mismatch "timestamp" reader.kind.name)
  | .list element => if reader.isNull then return .null else return .list (← children.items element)
  | .map element => if reader.isNull then return .null else return .map (← children.entries element)

def readAny (hook : Hook) (reader : Reader) (children : Children) : Except Fault Datum :=
  match reader.kind with
  | .null => return .null
  | .bool => return .bool (← reader.bool)
  | .int64 => return .int (← reader.int)
  | .uint64 => return .uint (← reader.uint)
  | .float64 => return .float (← reader.float)
  | .bytes => return .bytes (← reader.bytes)
  | .string => return .string (← reader.string)
  | .complex128 => do
    let (re, im) ← reader.complex
    return .complex re im
  | .list => reader.consult hook (.list .any) (reader.readTyped children (.list .any))
  | .map => reader.consult hook (.map .any) (reader.readTyped children (.map .any))
  | .unsupported => do
    let _ ← reader.bool
    throw (.mismatch "value" Kind.unsupported.name)

def read (hook : Hook) (reader : Reader) (children : Children) (type : DatumType) :
    Except Fault Datum :=
  reader.consult hook type
    (if type = .any then reader.readAny hook children else reader.readTyped children type)

mutual

def decode (hook : Hook) (type : DatumType) : Reader → Except Fault Datum
  | reader@{ list, map, .. } =>
    reader.read hook
      { items := fun element => decodeList hook element list
        entries := fun element => decodeMap hook element map }
      type

def decodeList (hook : Hook) (element : DatumType) :
    Except Fault (List Reader) → Except Fault (List Datum)
  | .ok items => decodeItems hook element items
  | .error fault => throw fault

def decodeItems (hook : Hook) (element : DatumType) : List Reader → Except Fault (List Datum)
  | [] => return []
  | item :: items => return (← decode hook element item) :: (← decodeItems hook element items)

def decodeMap (hook : Hook) (element : DatumType) :
    Except Fault (Entries Reader) → Except Fault (SortedEntries Datum)
  | .ok entries => decodeEntries hook (fun _ => element) entries
  | .error fault => throw fault

def decodeEntries (hook : Hook) (type : String → DatumType) :
    Entries Reader → Except Fault (SortedEntries Datum)
  | ⟨_, _, fields⟩ => return .ofList (← decodeFields hook type fields).toList

def decodeFields (hook : Hook) (type : String → DatumType) {names : List String} :
    Fields Reader names → Except Fault (Fields Datum names)
  | .nil => return .nil
  | .cons name item rest =>
    return .cons name (← decode hook (type name) item) (← decodeFields hook type rest)

end

end AttributeCodec.Reader
