import AttributeCodec.Tree.Attribute
import AttributeCodec.Storable

namespace AttributeCodec

structure KeyNames where
  partition : String
  sort? : Option String := none
deriving DecidableEq

namespace KeyNames

def withSort (keys : KeyNames) (name : String) : KeyNames :=
  { keys with sort? := if name.isEmpty then none else some name }

def names (keys : KeyNames) : List String := keys.partition :: keys.sort?.toList

variable {δ : Type} [Storable δ]

def treesOf (hook : Hook) (stored : δ) (trees : Entries Tree) :
    List String → Except Fault (Entries Tree)
  | [] => return trees
  | name :: names => do
    let value ← Storable.field stored name
    let tree ← value.toTree hook
    treesOf hook stored (trees.update name fun _ => tree) names

def trees (keys : KeyNames) (hook : Hook) (stored : δ) : Except Fault (Entries Tree) :=
  treesOf hook stored .empty keys.names

def attributes {α : Type} [Attribute.Form α] (keys : KeyNames) (hook : Hook) (stored : δ) :
    Except Fault (Entries α) := do
  Tree.attributeEntries (← keys.trees hook stored)

def debugText (keys : KeyNames) : String :=
  let sort := match keys.sort? with
    | some name => s!"Some({Text.quoted name})"
    | none => "None"
  s!"KeySchema \x7b partition_key: {Text.quoted keys.partition}, sort_key: {sort} \x7d"

end KeyNames

end AttributeCodec
