import AttributeCodec.Text.Utf8

/-! Bytes as padded base64 text. Reading reports the first fault, in the order in which the groups come. -/

namespace AttributeCodec.Base64

inductive Fault where
  | invalidSymbol (byte : UInt8) (offset : Nat)
  | invalidLength (length : Nat)
  | invalidPadding
  | invalidLastSymbol (byte : UInt8) (offset : Nat)
deriving DecidableEq

def Fault.message : Fault → String
  | .invalidSymbol byte offset => s!"Invalid symbol {byte}, offset {offset}."
  | .invalidLength length => s!"Invalid input length: {length}"
  | .invalidPadding => "Invalid padding"
  | .invalidLastSymbol byte offset => s!"Invalid last symbol {byte}, offset {offset}."

def pad : UInt8 := 61

def symbol (value : Nat) : UInt8 :=
  if value < 26 then .ofNat (65 + value)
  else if value < 52 then .ofNat (71 + value)
  else if value < 62 then .ofNat (value - 4)
  else if value = 62 then 43
  else 47

def value? (byte : UInt8) : Option Nat :=
  if 65 ≤ byte ∧ byte ≤ 90 then some (byte.toNat - 65)
  else if 97 ≤ byte ∧ byte ≤ 122 then some (byte.toNat - 71)
  else if 48 ≤ byte ∧ byte ≤ 57 then some (byte.toNat + 4)
  else if byte = 43 then some 62
  else if byte = 47 then some 63
  else none

def first (a : UInt8) : UInt8 := symbol (a.toNat / 4)

def second (a b : UInt8) : UInt8 := symbol (a.toNat % 4 * 16 + b.toNat / 16)

def third (b c : UInt8) : UInt8 := symbol (b.toNat % 16 * 4 + c.toNat / 64)

def fourth (c : UInt8) : UInt8 := symbol (c.toNat % 64)

def encode : List UInt8 → List UInt8
  | a :: b :: c :: rest => first a :: second a b :: third b c :: fourth c :: encode rest
  | [a, b] => [first a, second a b, third b 0, pad]
  | [a] => [first a, second a 0, pad, pad]
  | [] => []

def bytesOf (a b c d : Nat) : List UInt8 :=
  [.ofNat (a * 4 + b / 16), .ofNat (b % 16 * 16 + c / 4), .ofNat (c % 4 * 64 + d)]

def valueAt (byte : UInt8) (offset : Nat) : Except Fault Nat :=
  match value? byte with
  | some value => .ok value
  | none => .error (.invalidSymbol byte offset)

def countPads (start : Nat) : List UInt8 → Except Fault Nat
  | [] => .ok 0
  | byte :: rest =>
    if byte = pad then (countPads start rest).map (· + 1) else .error (.invalidSymbol pad start)

def lastSymbols (start : Nat) (values : List Nat) : List UInt8 → Except Fault (List Nat × Nat)
  | [] => .ok (values, 0)
  | byte :: rest =>
    let offset := start + values.length
    if byte = pad ∧ 2 ≤ values.length then do
      let pads ← countPads offset rest
      return (values, pads + 1)
    else do
      let value ← valueAt byte offset
      lastSymbols start (values ++ [value]) rest

def decodeLast (start : Nat) (group : List UInt8) : Except Fault (List UInt8) := do
  match ← lastSymbols start [] group with
  | ([a, b, c, d], 0) => return bytesOf a b c d
  | ([a, b, c], 1) =>
    if c % 4 = 0 then return (bytesOf a b c 0).take 2
    else throw (.invalidLastSymbol (symbol c) (start + 2))
  | ([a, b], 2) =>
    if b % 16 = 0 then return (bytesOf a b 0 0).take 1
    else throw (.invalidLastSymbol (symbol b) (start + 1))
  | ([_], _) => throw (.invalidLength (start + 1))
  | _ => throw .invalidPadding

def decodeFrom (start : Nat) : List UInt8 → Except Fault (List UInt8)
  | [] => .ok []
  | a :: b :: c :: d :: e :: rest => do
    let a ← valueAt a start
    let b ← valueAt b (start + 1)
    let c ← valueAt c (start + 2)
    let d ← valueAt d (start + 3)
    return bytesOf a b c d ++ (← decodeFrom (start + 4) (e :: rest))
  | group => decodeLast start group

/-- A last byte that is alone in its group and no symbol is reported before all else. -/
def decode (text : List UInt8) : Except Fault (List UInt8) :=
  match text.getLast? with
  | none => .ok []
  | some byte =>
    if text.length % 4 = 1 ∧ byte ≠ pad ∧ value? byte = none then
      .error (.invalidSymbol byte (text.length - 1))
    else decodeFrom 0 text

def write (bytes : List UInt8) : String :=
  .ofList ((encode bytes).map fun byte => Char.ofNat byte.toNat)

def read (text : String) : Except Fault (List UInt8) := decode (Text.utf8 text)

end AttributeCodec.Base64
