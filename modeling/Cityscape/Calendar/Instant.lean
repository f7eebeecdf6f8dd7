/-!
# `Instant`: points in time

An instant counts seconds since the start of 1970 in the proleptic Gregorian calendar, and
nanoseconds within the second. A leap second has no number of its own: it is the second before
it, prolonged, so its nanoseconds run from `10 ^ 9` up to `2 * 10 ^ 9`.
-/

namespace Cityscape

/-- A point in time. -/
structure Instant where
  seconds : Int
  nanos : Nat
deriving DecidableEq, Inhabited

namespace Instant

/-- Earlier instants come first; a leap second comes between its neighbours. -/
instance : Ord Instant := ⟨compareLex (compareOn seconds) (compareOn nanos)⟩

instance : Std.TransOrd Instant :=
  inferInstanceAs (Std.TransCmp (compareLex (compareOn seconds) (compareOn nanos)))

instance : Std.LawfulEqOrd Instant where
  compare_self := @Std.ReflCmp.compare_self _ (compareLex (compareOn seconds) (compareOn nanos)) _
  eq_of_compare := by
    intro a b h
    obtain ⟨hs, hn⟩ := Ordering.then_eq_eq.1 h
    cases a; cases b
    exact congr (congrArg mk (Std.LawfulEqCmp.eq_of_compare hs)) (Std.LawfulEqCmp.eq_of_compare hn)

end Instant

/-! ## The calendar -/

namespace Calendar

/-- Whether a year has a 29th of February. -/
def isLeapYear (year : Int) : Bool := year % 4 = 0 ∧ (year % 100 ≠ 0 ∨ year % 400 = 0)

/-- The number of days of a month; months count from one. -/
def daysInMonth (year : Int) (month : Nat) : Nat :=
  if month = 2 then if isLeapYear year then 29 else 28
  else if month = 4 ∨ month = 6 ∨ month = 9 ∨ month = 11 then 30
  else 31

/-- The days from the first of March of year zero to the given day. The year is taken to begin
in March, so that the leap day is its last. -/
def daysSinceMarch (year : Int) (month day : Nat) : Int :=
  let y := if month ≤ 2 then year - 1 else year
  let m : Int := (month + 9) % 12
  365 * y + y / 4 - y / 100 + y / 400 + (153 * m + 2) / 5 + day - 1

/-- The days from the first of January 1970 to the given day. -/
def dayNumber (year : Int) (month day : Nat) : Int := daysSinceMarch year month day - 719468

/-- The year, month and day with the given number. -/
def ofDayNumber (n : Int) : Int × Nat × Nat :=
  let z := n + 719468
  let era := z / 146097
  let dayOfEra := z % 146097
  let yearOfEra := (dayOfEra - dayOfEra / 1460 + dayOfEra / 36524 - dayOfEra / 146096) / 365
  let dayOfYear := dayOfEra - (365 * yearOfEra + yearOfEra / 4 - yearOfEra / 100)
  let m := (5 * dayOfYear + 2) / 153
  let day := dayOfYear - (153 * m + 2) / 5 + 1
  let month := if m < 10 then m + 3 else m - 9
  let year := yearOfEra + era * 400
  (if month ≤ 2 then year + 1 else year, month.toNat, day.toNat)

example : dayNumber 1970 1 1 = 0 ∧ dayNumber 2024 2 29 = 19782 ∧ dayNumber 0 1 1 = -719528 := by
  decide
example : ofDayNumber 0 = (1970, 1, 1) ∧ ofDayNumber 19782 = (2024, 2, 29) := by decide
example : ofDayNumber (-719529) = (-1, 12, 31) := by decide

end Calendar

end Cityscape
