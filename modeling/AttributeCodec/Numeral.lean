import AttributeCodec.Binary64.Decimal

namespace AttributeCodec

inductive Numeral where
  | nan
  | infinite (negative : Bool)
  | decimal (negative : Bool) (digits : Nat) (exponent : Int)
deriving DecidableEq

namespace Numeral

def unsigned : List Char → Bool × List Char
  | '-' :: rest => (true, rest)
  | '+' :: rest => (false, rest)
  | text => (false, text)

def ofDigits (digits : List Char) : Nat := Nat.ofDigitChars 10 digits 0

def digits? (text : List Char) : Option Nat :=
  if text ≠ [] ∧ text.all Char.isDigit then some (ofDigits text) else none

def exponent? : List Char → Option Int
  | [] => some 0
  | c :: rest =>
    if c.toLower = 'e' then
      let (negative, text) := unsigned rest
      (digits? text).map fun (n : Nat) => if negative then -n else n
    else none

def fraction : List Char → List Char × List Char
  | '.' :: rest => (rest.takeWhile Char.isDigit, rest.dropWhile Char.isDigit)
  | rest => ([], rest)

def decimal? (negative : Bool) (text : List Char) : Option Numeral :=
  let whole := text.takeWhile Char.isDigit
  let (places, rest) := fraction (text.dropWhile Char.isDigit)
  if whole ++ places = [] then none
  else (exponent? rest).map fun e => .decimal negative (ofDigits (whole ++ places)) (e - places.length)

def ofChars? (text : List Char) : Option Numeral :=
  let (negative, body) := unsigned text
  let word := body.map Char.toLower
  if word = ['n', 'a', 'n'] then some .nan
  else if word = ['i', 'n', 'f'] ∨ word = ['i', 'n', 'f', 'i', 'n', 'i', 't', 'y'] then
    some (.infinite negative)
  else decimal? negative body

def toBinary64 : Numeral → Binary64
  | .nan => .nan
  | .infinite negative => .infinite negative
  | .decimal negative digits exponent => .ofDecimal negative digits exponent

def overflows : Numeral → Bool
  | .decimal negative digits exponent =>
    Binary64.ofDecimal negative digits exponent = .infinite negative
  | _ => false

def places (one : Nat) : Nat → Nat → List Char
  | 0, _ => []
  | count + 1, rest =>
    if rest = 0 then [] else Nat.digitChar (rest * 10 / one) :: places one count (rest * 10 % one)

def fixedPoint (steps : Nat) : List Char :=
  let whole := Nat.toDigits 10 (steps / Binary64.stepsPerOne)
  match places Binary64.stepsPerOne Binary64.unitExponent (steps % Binary64.stepsPerOne) with
  | [] => whole
  | fractional => whole ++ '.' :: fractional

def ofFinite (x : Binary64.Finite) : List Char :=
  (if x.negative then ['-'] else []) ++ fixedPoint (Binary64.shortestSteps x.units)

end Numeral

namespace Binary64

def text : Binary64 → String
  | .nan => "NaN"
  | .infinite negative => if negative then "-Inf" else "+Inf"
  | .finite x => .ofList (Numeral.ofFinite x)

end Binary64

end AttributeCodec
