import AttributeCodec.Instant.Basic
import AttributeCodec.Instant.Calendar
import AttributeCodec.Text.Utf8

/-! The text of a moment. Reading reports the first fault, the date before the time, the time before the offset,
and the offset's range last. -/

namespace AttributeCodec.Instant

attribute [local instance (high)] instPowNat

def epochDay : Int := 719528

def date (instant : Instant) : Date := .ofDayNumber (instant.seconds / 86400 + epochDay)

def padded (width n : Nat) : List Char :=
  let digits := Nat.toDigits 10 n
  List.replicate (width - digits.length) '0' ++ digits

def yearText (year : Int) : List Char :=
  if 0 ≤ year ∧ year ≤ 9999 then padded 4 year.toNat
  else (if year < 0 then '-' else '+') :: padded 4 year.natAbs

def chars (instant : Instant) : List Char :=
  let date := instant.date
  let time := (instant.seconds % 86400).toNat
  let (second, nanos) :=
    if instant.isLeapSecond then (time % 60 + 1, instant.nanos - 1000000000)
    else (time % 60, instant.nanos)
  yearText date.year ++ '-' :: padded 2 date.month ++ '-' :: padded 2 date.day ++
    'T' :: padded 2 (time / 3600) ++ ':' :: padded 2 (time / 60 % 60) ++ ':' :: padded 2 second ++
    '.' :: padded 9 nanos ++ ['Z']

def text (instant : Instant) : String := .ofList instant.chars

inductive TextFault where
  | tooShort
  | invalid
  | outOfRange
  | tooLong
deriving DecidableEq

def TextFault.message : TextFault → String
  | .tooShort => "premature end of input"
  | .invalid => "input contains invalid characters"
  | .outOfRange => "input is out of range"
  | .tooLong => "trailing input"

abbrev Scan := StateT (List UInt8) (Except TextFault)

namespace Scan

def isDigit (byte : UInt8) : Bool := 48 ≤ byte ∧ byte ≤ 57

def ofDigits (digits : List UInt8) : Nat :=
  digits.foldl (fun acc byte => 10 * acc + (byte.toNat - 48)) 0

def number (count : Nat) : Scan Nat := fun bytes =>
  if bytes.length < count then .error .tooShort
  else if (bytes.take count).all isDigit then .ok (ofDigits (bytes.take count), bytes.drop count)
  else .error .invalid

def oneOf (choices : List UInt8) : Scan Unit
  | [] => .error .tooShort
  | byte :: rest => if byte ∈ choices then .ok ((), rest) else .error .invalid

def colon : Scan Unit := oneOf [58]

def dash : Scan Unit := oneOf [45]

def require (p : Prop) [Decidable p] (fault : TextFault) : Scan Unit :=
  if p then pure () else throw fault

def date : Scan Date := do
  let year ← number 4
  dash
  let month ← number 2
  dash
  let day ← number 2
  let date : Date := ⟨year, month, day⟩
  require date.Exists .outOfRange
  return date

def nanosOfDigits (digits : List UInt8) : Nat :=
  ofDigits (digits.take 9) * 10 ^ (9 - digits.length)

def fraction : Scan Nat
  | 46 :: bytes =>
    match bytes.takeWhile isDigit with
    | [] => .error (if bytes = [] then .tooShort else .invalid)
    | digits => .ok (nanosOfDigits digits, bytes.dropWhile isDigit)
  | bytes => .ok (0, bytes)

/-- Second of the day and nanoseconds. The second numbered 60 is the one before with a thousand
million nanoseconds more. -/
def time : Scan (Nat × Nat) := do
  let hour ← number 2
  colon
  let minute ← number 2
  colon
  let second ← number 2
  let nanos ← fraction
  require (hour < 24 ∧ minute < 60 ∧ second ≤ 60) .outOfRange
  let start := hour * 3600 + minute * 60
  return if second = 60 then (start + 59, nanos + 1000000000) else (start + second, nanos)

def sign : Scan Bool
  | [] => .error .tooShort
  | 43 :: rest => .ok (false, rest)
  | 45 :: rest => .ok (true, rest)
  | 0xE2 :: 0x88 :: 0x92 :: rest => .ok (true, rest)
  | _ => .error .invalid

def signedOffset : Scan Int := do
  let negative ← sign
  let hours ← number 2
  colon
  let minutes ← number 2
  require (minutes < 60) .outOfRange
  let total : Int := (hours * 60 + minutes : Nat)
  return if negative then -total else total

def offset : Scan Int
  | 90 :: rest => .ok (0, rest)
  | 122 :: rest => .ok (0, rest)
  | bytes => signedOffset bytes

def finished : Scan Unit
  | [] => .ok ((), [])
  | _ => .error .tooLong

def fields : Scan (Date × Nat × Nat × Int) := do
  let date ← date
  oneOf [84, 116, 32]
  let (second, nanos) ← time
  let offset ← offset
  finished
  require (-1440 < offset ∧ offset < 1440) .outOfRange
  return (date, second, nanos, offset)

end Scan

def ofFields? (date : Date) (second nanos : Nat) (offset : Int) : Option Instant :=
  ofUnix? ((date.dayNumber - epochDay) * 86400 + second - offset * 60) nanos

def ofBytes (bytes : List UInt8) : Except TextFault Instant :=
  if bytes.length < 19 then .error .tooShort
  else do
    let ((date, second, nanos, offset), _) ← Scan.fields.run bytes
    match ofFields? date second nanos offset with
    | some instant => .ok instant
    | none => .error .outOfRange

def parse (text : String) : Except TextFault Instant := ofBytes (Text.utf8 text)

end AttributeCodec.Instant
