import AttributeCodec.Binary64.Basic

/-! Notices in order, each a scalar or the start of a list or map whose children are then visited. -/

namespace AttributeCodec

inductive Notice where
  | null
  | bool (value : Bool)
  | int (value : Int64)
  | uint (value : UInt64)
  | float (value : Binary64)
  | bytes (value : List UInt8)
  | string (text : String)
  | complex (re im : Binary64)
  | list (length : Nat) (fills : List (Nat × List Notice))
  | map (size : Nat) (fills : List (String × List Notice))

abbrev Script := List Notice

namespace Notice

mutual

def inRange : Notice → Bool
  | list length fills => itemsInRange length fills
  | map _ fills => fieldsInRange fills
  | _ => true

def allInRange : List Notice → Bool
  | [] => true
  | notice :: rest => inRange notice && allInRange rest

def itemsInRange (length : Nat) : List (Nat × List Notice) → Bool
  | [] => true
  | (index, script) :: fills => decide (index < length) && allInRange script && itemsInRange length fills

def fieldsInRange : List (String × List Notice) → Bool
  | [] => true
  | (_, script) :: fills => allInRange script && fieldsInRange fills

end

end Notice

namespace Script

def InRange (script : Script) : Prop := Notice.allInRange script = true

instance (script : Script) : Decidable script.InRange := inferInstanceAs (Decidable (_ = true))

end Script

end AttributeCodec
