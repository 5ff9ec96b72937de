import AttributeCodec.Script.Basic

namespace AttributeCodec

namespace Notice

mutual

def count : Notice → Nat
  | list _ fills => 1 + countItems fills
  | map _ fills => 1 + countFields fills
  | _ => 1

def countAll : List Notice → Nat
  | [] => 0
  | notice :: rest => count notice + countAll rest

def countItems : List (Nat × List Notice) → Nat
  | [] => 0
  | (_, script) :: fills => countAll script + countItems fills

def countFields : List (String × List Notice) → Nat
  | [] => 0
  | (_, script) :: fills => countAll script + countFields fills

end

mutual

/-- What is left of a notice of which `budget` notices, itself and those inside, are given, and of the
budget. -/
def cut (budget : Nat) : Notice → Notice × Nat
  | list length fills =>
    let (fills, budget) := cutItems (budget - 1) fills
    (list length fills, budget)
  | map size fills =>
    let (fills, budget) := cutFields (budget - 1) fills
    (map size fills, budget)
  | notice => (notice, budget - 1)

def cutAll (budget : Nat) : List Notice → List Notice × Nat
  | [] => ([], budget)
  | notice :: rest =>
    if budget = 0 then ([], 0)
    else
      let (notice, budget) := cut budget notice
      let (rest, budget) := cutAll budget rest
      (notice :: rest, budget)

def cutItems (budget : Nat) : List (Nat × List Notice) → List (Nat × List Notice) × Nat
  | [] => ([], budget)
  | (index, script) :: fills =>
    let (kept, left) := cutAll budget script
    let (fills, left) := cutItems left fills
    (if budget = 0 ∧ script ≠ [] then fills else (index, kept) :: fills, left)

def cutFields (budget : Nat) : List (String × List Notice) → List (String × List Notice) × Nat
  | [] => ([], budget)
  | (name, script) :: fills =>
    let (kept, left) := cutAll budget script
    let (fills, left) := cutFields left fills
    (if budget = 0 ∧ script ≠ [] then fills else (name, kept) :: fills, left)

end

end Notice

namespace Script

def size (script : Script) : Nat := Notice.countAll script

def take (count : Nat) (script : Script) : Script := (Notice.cutAll count script).1

end Script

end AttributeCodec
