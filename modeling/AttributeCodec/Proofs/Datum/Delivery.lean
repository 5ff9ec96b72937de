import AttributeCodec.Proofs.Datum.Encode
import AttributeCodec.Proofs.Datum.Reached
import AttributeCodec.Proofs.Slot.Run

/-! Encoding as it goes from slot to slot, with the slot that each datum is delivered to. -/

namespace AttributeCodec

structure Arrival where
  datum : Datum
  slot : Slot

structure Delivery (σ : Type) where
  arrivals : List Arrival
  left : σ
  result : Except Fault Unit

namespace Delivery

variable {σ τ : Type}

def done (left : σ) : Delivery σ := ⟨[], left, return ()⟩

def map (f : σ → τ) (delivery : Delivery σ) : Delivery τ := ⟨delivery.arrivals, f delivery.left, delivery.result⟩

def andThen (first : Delivery σ) (next : σ → Delivery σ) : Delivery σ :=
  match first.result with
  | .error _ => first
  | .ok () => ⟨first.arrivals ++ (next first.left).arrivals, (next first.left).left, (next first.left).result⟩

end Delivery

namespace Datum

def deliverWith (hook : Hook) (datum : Datum) (rest : Slot → Delivery Slot) (slot : Slot) : Delivery Slot :=
  match hook.encode datum with
  | (script, .refuse fault) => ⟨[⟨datum, slot⟩], slot.run script, throw fault⟩
  | (script, .accept) =>
    ⟨[⟨datum, slot⟩], slot.run script,
      if (slot.run script).isEncoded then return () else throw (.hookSilent datum.typeName)⟩
  | (script, .decline) =>
    let rest := rest (slot.run script)
    ⟨⟨datum, slot⟩ :: rest.arrivals, rest.left, rest.result⟩

mutual

def deliverDeclined (hook : Hook) : Datum → Slot → Delivery Slot
  | null, _ => .done (.ofNotice .null)
  | bool value, _ => .done (.ofNotice (.bool value))
  | int value, _ => .done (.ofNotice (.int value))
  | uint value, _ => .done (.ofNotice (.uint value))
  | float value, _ => .done (.ofNotice (.float value))
  | complex re im, _ => .done (.ofNotice (.complex re im))
  | bytes value, _ => .done (.ofNotice (.bytes value))
  | string text, _ => .done (.ofNotice (.string text))
  | timestamp _, slot => ⟨[], slot, throw (.noEncoding "timestamp")⟩
  | list items, _ => (deliverItems hook 0 items (List.replicate items.length .unset)).map .list
  | map entries, _ => (deliverEntries hook entries .empty).map (.map entries.size)

def deliverItems (hook : Hook) (index : Nat) : List Datum → List Slot → Delivery (List Slot)
  | [], slots => .done slots
  | item :: items, slots =>
    ((deliverWith hook item (deliverDeclined hook item) (slots[index]?.getD .unset)).map fun slot =>
      slots.set index slot).andThen (deliverItems hook (index + 1) items)

def deliverEntries (hook : Hook) : SortedEntries Datum → Entries Slot → Delivery (Entries Slot)
  | ⟨_, _, fields⟩, slots => deliverFields hook fields slots

def deliverFields (hook : Hook) {names : List String} : Fields Datum names → Entries Slot → Delivery (Entries Slot)
  | .nil, slots => .done slots
  | .cons name value rest, slots =>
    ((deliverWith hook value (deliverDeclined hook value) ((slots.get? name).getD .unset)).map fun slot =>
      slots.update name fun _ => slot).andThen (deliverFields hook rest)

end

variable {hook : Hook}

end Datum

end AttributeCodec
