/-!
# Dates

Dates of the Gregorian calendar, extended to all years of a fixed range.

* `Date.mk?_isSome_iff` : three numbers are a date iff the year is in range and the month has
  that day.
-/

namespace Keyset

namespace Calendar

/-- The first year of the calendar. -/
def firstYear : Int := -262143

/-- The last year of the calendar. -/
def lastYear : Int := 262142

/-- Every fourth year is a leap year, except the centuries not divisible by four hundred. -/
def isLeapYear (year : Int) : Bool := year % 4 = 0 && (year % 100 ≠ 0 || year % 400 = 0)

/-- The number of days of a month. There are none in a month outside `1` to `12`. -/
def daysIn (year : Int) (month : Nat) : Nat :=
  match month with
  | 1 | 3 | 5 | 7 | 8 | 10 | 12 => 31
  | 4 | 6 | 9 | 11 => 30
  | 2 => if isLeapYear year then 29 else 28
  | _ => 0

end Calendar

open Calendar

/-- A date of the calendar. -/
structure Date where
  /-- The year; year `0` comes before year `1`. -/
  year : Int
  /-- The month, from `1`. -/
  month : Nat
  /-- The day of the month, from `1`. -/
  day : Nat
  /-- The year belongs to the calendar. -/
  year_mem : firstYear ≤ year ∧ year ≤ lastYear
  /-- The month has that day. -/
  day_mem : 1 ≤ day ∧ day ≤ daysIn year month
deriving DecidableEq

namespace Date

/-- The date with the given numbers, if there is one. -/
def mk? (year : Int) (month day : Nat) : Option Date :=
  if hy : firstYear ≤ year ∧ year ≤ lastYear then
    if hd : 1 ≤ day ∧ day ≤ daysIn year month then some ⟨year, month, day, hy, hd⟩ else none
  else none

theorem mk?_isSome_iff {year : Int} {month day : Nat} :
    (mk? year month day).isSome = true ↔
      (firstYear ≤ year ∧ year ≤ lastYear) ∧ 1 ≤ day ∧ day ≤ daysIn year month := by
  by_cases hy : firstYear ≤ year ∧ year ≤ lastYear
  · by_cases hd : 1 ≤ day ∧ day ≤ daysIn year month
    · simp [mk?, hy, hd]
    · rw [mk?, dif_pos hy, dif_neg hd]; exact ⟨fun h => absurd h (by simp), fun h => absurd h.2 hd⟩
  · rw [mk?, dif_neg hy]; exact ⟨fun h => absurd h (by simp), fun h => absurd h.1 hy⟩

end Date

end Keyset
