import AttributeCodec.Slot

namespace AttributeCodec

structure LogEntry where
  encodedBefore : Bool
  encodedAfter : Bool
  length? : Option Nat
deriving DecidableEq

namespace Slot

def listLength? : Slot → Option Nat
  | list slots => some slots.length
  | _ => none

mutual

def logInside : Notice → List LogEntry
  | .list length fills => logItems (List.replicate length unset) fills
  | .map _ fills => logFields .empty fills
  | _ => []

def log (slot : Slot) : List Notice → List LogEntry
  | [] => []
  | notice :: rest =>
    let after := ofNotice notice
    logInside notice ++ ⟨slot.isEncoded, after.isEncoded, after.listLength?⟩ :: log after rest

def logItems (slots : List Slot) : List (Nat × List Notice) → List LogEntry
  | [] => []
  | (index, script) :: fills =>
    log (slots[index]?.getD unset) script ++
      logItems (slots.modify index fun slot => run slot script) fills

def logFields (entries : Entries Slot) : List (String × List Notice) → List LogEntry
  | [] => []
  | (name, script) :: fills =>
    log ((entries.get? name).getD unset) script ++
      logFields (entries.update name fun slot? => run (slot?.getD unset) script) fills

end

end Slot

end AttributeCodec
