import AttributeCodec.Entries
import AttributeCodec.Number

/-! What can be asked of a node: one answer or refusal for each shape a destination may want. -/

namespace AttributeCodec

structure Reader where
  kind : Kind
  isNull : Bool
  set? : Option SetType
  bool : Except Fault Bool
  int : Except Fault Int64
  uint : Except Fault UInt64
  float : Except Fault Binary64
  complex : Except Fault (Binary64 × Binary64)
  bytes : Except Fault (List UInt8)
  string : Except Fault String
  list : Except Fault (List Reader)
  map : Except Fault (Entries Reader)

namespace Reader

def refusing (kind : Kind) (fault : String → Fault) : Reader where
  kind := kind
  isNull := false
  set? := none
  bool := .error (fault "bool")
  int := .error (fault "int64")
  uint := .error (fault "uint64")
  float := .error (fault "float64")
  complex := .error (fault "complex128")
  bytes := .error (fault "bytes")
  string := .error (fault "string")
  list := .error (fault "list")
  map := .error (fault "map")

def ofKind (kind : Kind) : Reader := refusing kind fun expected => .mismatch expected kind.name

def null : Reader := { ofKind .null with isNull := true }

def ofSet (type : SetType) : Reader :=
  { refusing .unsupported fun _ => .unsupportedSet type with set? := some type }

def complexOfItems : List Reader → Except Fault (Binary64 × Binary64)
  | [re, im] => do return (← re.float, ← im.float)
  | _ => .error (.mismatch "two-element number list" "list")

def ofItems (items : List Reader) : Reader :=
  { ofKind .list with list := .ok items, complex := complexOfItems items }

def ofEntries (entries : Entries Reader) : Reader := { ofKind .map with map := .ok entries }

def listLength (reader : Reader) : Except Fault Nat := reader.list.map List.length

def mapSize (reader : Reader) : Except Fault Nat := reader.map.map Entries.size

abbrev Visit (σ : Type) := ExceptT Fault (StateM σ)

variable {σ : Type}

def visitFrom (visit : Nat → Reader → Visit σ Bool) : Nat → List Reader → Visit σ Unit
  | _, [] => pure ()
  | index, item :: items => do
    if ← visit index item then visitFrom visit (index + 1) items

def visitList (reader : Reader) (visit : Nat → Reader → Visit σ Bool) : Visit σ Unit :=
  match reader.list with
  | .ok items => visitFrom visit 0 items
  | .error fault => throw fault

def visitFields (visit : String → Reader → Visit σ Bool) {names : List String} :
    Fields Reader names → Visit σ Unit
  | .nil => pure ()
  | .cons name item rest => do
    if ← visit name item then visitFields visit rest

def visitMap (reader : Reader) (visit : String → Reader → Visit σ Bool) : Visit σ Unit :=
  match reader.map with
  | .ok entries => visitFields visit entries.fields
  | .error fault => throw fault

end Reader

end AttributeCodec
