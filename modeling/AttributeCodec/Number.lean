import AttributeCodec.Fault
import AttributeCodec.Numeral

/-! Number text is read as the nearest binary value, which then takes the narrowest kind that holds it. -/

namespace AttributeCodec

inductive Number where
  | int (value : Int64)
  | uint (value : UInt64)
  | float (value : Binary64)
deriving DecidableEq

namespace Number

def kind : Number → Kind
  | int _ => .int64
  | uint _ => .uint64
  | float _ => .float64

def ofBinary64 (x : Binary64) : Number :=
  match x.toInt? with
  | some i =>
    if Int64.minValue.toInt ≤ i ∧ i ≤ Int64.maxValue.toInt then .int (.ofInt i)
    else if 0 ≤ i ∧ i < UInt64.size then .uint (.ofNat i.toNat)
    else .float x
  | none => .float x

def read (text : String) : Except Fault Number :=
  match Numeral.ofChars? text.toList with
  | some numeral =>
    if numeral.overflows then .error (.invalidNumber text) else .ok (ofBinary64 numeral.toBinary64)
  | none => .error (.invalidNumber text)

def text : Number → String
  | int i => toString i.toInt
  | uint u => toString u.toNat
  | float x => x.text

def toInt64 : Number → Except Fault Int64
  | int i => .ok i
  | uint u =>
    if u.toNat ≤ Int64.maxValue.toInt then .ok u.toInt64 else .error (.mismatch "int64" "uint64")
  | float _ => .error (.mismatch "int64" "float64")

def toUInt64 : Number → Except Fault UInt64
  | int i => if 0 ≤ i.toInt then .ok i.toUInt64 else .error (.mismatch "uint64" "int64")
  | uint u => .ok u
  | float _ => .error (.mismatch "uint64" "float64")

def toBinary64 : Number → Binary64
  | int i => .ofInt i.toInt
  | uint u => .ofInt u.toNat
  | float x => x

def numEq : Number → Number → Bool
  | int i, int j => i == j
  | uint u, uint v => u == v
  | float x, float y => x.numEq y
  | _, _ => false

end Number

end AttributeCodec
