/-! Moments in universal time. With a thousand million nanoseconds or more a moment is in a leap second, which
goes on with the second that is counted. -/

namespace AttributeCodec

-- Seconds count from the start of 1970.
structure Instant where
  seconds : Int
  nanos : Nat
  nanos_lt : nanos < 2000000000
  first_le : -8334601228800 ≤ seconds
  le_last : seconds ≤ 8210266876799
deriving DecidableEq

namespace Instant

-- A count that comes with a leap second has it at the end of a minute.
def ofUnix? (seconds : Int) (nanos : Nat) : Option Instant :=
  if h : nanos < 2000000000 ∧ (1000000000 ≤ nanos → seconds % 60 = 59) ∧
      -8334601228800 ≤ seconds ∧ seconds ≤ 8210266876799 then
    some ⟨seconds, nanos, h.1, h.2.2.1, h.2.2.2⟩
  else none

def isLeapSecond (instant : Instant) : Bool := 1000000000 ≤ instant.nanos

end Instant

end AttributeCodec
