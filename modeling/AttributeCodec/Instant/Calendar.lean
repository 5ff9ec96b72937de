namespace AttributeCodec

def isLeapYear (year : Int) : Bool := year % 4 = 0 ∧ (year % 100 ≠ 0 ∨ year % 400 = 0)

def monthLengths (year : Int) : List Nat :=
  [31, if isLeapYear year then 29 else 28, 31, 30, 31, 30, 31, 31, 30, 31, 30, 31]

def daysBeforeYear (year : Int) : Int :=
  365 * year + (year + 3) / 4 - (year + 99) / 100 + (year + 399) / 400

/-- The year that holds a day: years have 146097 / 400 days on average, and no year's first day is
as much as a year away from where that average puts it. -/
def yearOfDay (day : Int) : Int :=
  let year := day * 400 / 146097
  if day < daysBeforeYear year then year - 1
  else if daysBeforeYear (year + 1) ≤ day then year + 1
  else year

structure Date where
  year : Int
  month : Nat
  day : Nat
deriving DecidableEq

namespace Date

def Exists (date : Date) : Prop :=
  1 ≤ date.month ∧ 1 ≤ date.day ∧ date.day ≤ (monthLengths date.year)[date.month - 1]?.getD 0

instance (date : Date) : Decidable date.Exists := inferInstanceAs (Decidable (_ ∧ _))

def daysBeforeMonth (date : Date) : Nat :=
  ((monthLengths date.year).take (date.month - 1)).foldl (· + ·) 0

def dayNumber (date : Date) : Int :=
  daysBeforeYear date.year + date.daysBeforeMonth + date.day - 1

def inMonths : List Nat → Nat → Nat × Nat
  | [], rest => (1, rest + 1)
  | length :: lengths, rest =>
    if rest < length then (1, rest + 1)
    else
      let (month, day) := inMonths lengths (rest - length)
      (month + 1, day)

def ofDayNumber (day : Int) : Date :=
  let year := yearOfDay day
  let (month, day) := inMonths (monthLengths year) (day - daysBeforeYear year).toNat
  ⟨year, month, day⟩

end Date

end AttributeCodec
