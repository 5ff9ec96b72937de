import AttributeCodec.Script.Basic
import AttributeCodec.Tree.Basic

/-! Each notice replaces what the slot held. A slot finishes as a tree once nothing in it is missing. -/

namespace AttributeCodec

inductive Slot where
  | unset
  | ready (tree : Tree)
  | list (slots : List Slot)
  | map (announced : Nat) (entries : Entries Slot)

namespace Slot

def isEncoded : Slot → Bool
  | unset => false
  | _ => true

mutual

def ofNotice : Notice → Slot
  | .null => ready .null
  | .bool value => ready (.bool value)
  | .int value => ready (.number (.int value))
  | .uint value => ready (.number (.uint value))
  | .float value => ready (.number (.float value))
  | .bytes value => ready (.bytes value)
  | .string text => ready (.ofText text)
  | .complex re im => ready (.complex re im)
  | .list length fills => list (fillItems (List.replicate length unset) fills)
  | .map size fills => map size (fillFields .empty fills)

def run (slot : Slot) : List Notice → Slot
  | [] => slot
  | notice :: rest => run (ofNotice notice) rest

def fillItems (slots : List Slot) : List (Nat × List Notice) → List Slot
  | [] => slots
  | (index, script) :: fills =>
    fillItems (slots.modify index fun slot => run slot script) fills

def fillFields (entries : Entries Slot) : List (String × List Notice) → Entries Slot
  | [] => entries
  | (name, script) :: fills =>
    fillFields (entries.update name fun slot? => run (slot?.getD unset) script) fills

end

inductive Gap where
  | unset
  | missing (announced visited : Nat)
  | item (index : Nat) (gap : Gap)
  | field (name : String) (gap : Gap)
deriving DecidableEq

def Gap.detail : Gap → String
  | unset => "value slot was never encoded"
  | missing announced visited => s!"map announced {announced} entries, got {visited}"
  | item index gap => s!"list index {index}: {(Fault.incomplete gap.detail).message}"
  | field name gap => s!"map key {Text.quoted name}: {(Fault.incomplete gap.detail).message}"

mutual

def tree : Slot → Except Gap Tree
  | unset => throw .unset
  | ready tree => return tree
  | list slots => return .list (← treeItems 0 slots)
  | map announced entries =>
    if entries.size < announced then throw (.missing announced entries.size)
    else return .map (← treeEntries entries)

def treeItems (index : Nat) : List Slot → Except Gap (List Tree)
  | [] => return []
  | slot :: slots =>
    return (← (tree slot).mapError (.item index)) :: (← treeItems (index + 1) slots)

def treeEntries : Entries Slot → Except Gap (Entries Tree)
  | ⟨names, distinct, fields⟩ => return ⟨names, distinct, ← treeFields fields⟩

def treeFields {names : List String} : Fields Slot names → Except Gap (Fields Tree names)
  | .nil => return .nil
  | .cons name slot rest =>
    return .cons name (← (tree slot).mapError (.field name)) (← treeFields rest)

end

def finish (slot : Slot) : Except Fault Tree :=
  slot.tree.mapError fun gap => .incomplete gap.detail

end Slot

end AttributeCodec
