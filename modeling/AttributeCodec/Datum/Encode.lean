import AttributeCodec.Hook
import AttributeCodec.Slot

/-! The script of an encoding that fails is the part given before the failure. -/

namespace AttributeCodec

abbrev Encoding := Script × Except Fault Unit

namespace Datum

/-- The hook's verdict on a datum, of which `generic` is the general encoding. A hook that accepts has
to leave the slot with a notice, if not its own then an earlier one. -/
def consult (hook : Hook) (notified : Bool) (datum : Datum) (generic : Encoding) : Encoding :=
  match hook.encode datum with
  | (script, .refuse fault) => (script, throw fault)
  | (script, .accept) =>
    (script, if notified || !script.isEmpty then return () else throw (.hookSilent datum.typeName))
  | (script, .decline) => (script ++ generic.1, generic.2)

mutual

def generic (hook : Hook) : Datum → Encoding
  | null => ([.null], return ())
  | bool value => ([.bool value], return ())
  | int value => ([.int value], return ())
  | uint value => ([.uint value], return ())
  | float value => ([.float value], return ())
  | complex re im => ([.complex re im], return ())
  | bytes value => ([.bytes value], return ())
  | string text => ([.string text], return ())
  | timestamp _ => ([], throw (.noEncoding "timestamp"))
  | list items =>
    let (fills, result) := genericItems hook 0 items
    ([.list items.length fills], result)
  | map entries =>
    let (fills, result) := genericEntries hook entries
    ([.map entries.size fills], result)

def genericItems (hook : Hook) (index : Nat) : List Datum → List (Nat × Script) × Except Fault Unit
  | [] => ([], return ())
  | item :: items =>
    match consult hook false item (generic hook item) with
    | (script, .error fault) => ([(index, script)], throw fault)
    | (script, .ok ()) =>
      let (fills, result) := genericItems hook (index + 1) items
      ((index, script) :: fills, result)

def genericEntries (hook : Hook) :
    SortedEntries Datum → List (String × Script) × Except Fault Unit
  | ⟨_, _, fields⟩ => genericFields hook fields

def genericFields (hook : Hook) {names : List String} :
    Fields Datum names → List (String × Script) × Except Fault Unit
  | .nil => ([], return ())
  | .cons name item rest =>
    match consult hook false item (generic hook item) with
    | (script, .error fault) => ([(name, script)], throw fault)
    | (script, .ok ()) =>
      let (fills, result) := genericFields hook rest
      ((name, script) :: fills, result)

end

def encode (hook : Hook) (notified : Bool) (datum : Datum) : Encoding :=
  consult hook notified datum (generic hook datum)

def encodeInto (hook : Hook) (datum : Datum) (slot : Slot) : Slot × Except Fault Unit :=
  let (script, result) := encode hook slot.isEncoded datum
  (slot.run script, result)

end Datum

def Encoding.tree (encoding : Encoding) : Except Fault Tree := do
  encoding.2
  (Slot.unset.run encoding.1).finish

namespace Datum

def toTree (hook : Hook) (datum : Datum) : Except Fault Tree := (encode hook false datum).tree

end Datum

end AttributeCodec
