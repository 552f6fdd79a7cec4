import Keyset.Calendar.Date
import Keyset.Decimal.Digits
import Keyset.Text.Blank
import Keyset.Text.Split

/-!
# Timestamps

A timestamp is a date and a time of day, to the nanosecond and without a zone. Its text is
`YYYY-MM-DD hh:mm:ss`: nanoseconds are not written, and a leap second is written as the second after
the one where the clock stays, which is `60` only after second `59`.

* `Timestamp.text` writes a timestamp, `Timestamp.read?` reads one, with more freedom in blanks and
  widths than the written form has.
* `Timestamp.wholeSecond_wholeSecond` : cutting a timestamp to its second twice changes nothing
  more.
-/

namespace Keyset

open Decimal Text

/-- A time of day. During a leap second the clock stays at its second and the nanoseconds count on
from a thousand million. -/
structure Clock where
  /-- The hour, from `0`. -/
  hour : Nat
  /-- The minute, from `0`. -/
  minute : Nat
  /-- The second, from `0`. -/
  second : Nat
  /-- The nanoseconds since the second began. -/
  nanos : Nat
  /-- The hour, minute and second are on the clock. -/
  time_mem : hour < 24 ∧ minute < 60 ∧ second < 60
  /-- A second is followed by a leap second at most. -/
  nanos_mem : nanos < 2000000000
deriving DecidableEq

/-- A date and a time of day. -/
structure Timestamp where
  /-- The date. -/
  date : Date
  /-- The time of day. -/
  clock : Clock
deriving DecidableEq

namespace Clock

/-- The time of day with other nanoseconds, of which there may be as many at every second. -/
def withNanos? (c : Clock) (nanos : Nat) : Option Clock :=
  if hn : nanos < 2000000000 then some { c with nanos, nanos_mem := hn } else none

/-- The time of day with the given numbers, if there is one. Only second `59` is taken for a leap
second. -/
def mk? (hour minute second nanos : Nat) : Option Clock :=
  if ht : hour < 24 ∧ minute < 60 ∧ second < 60 then
    if nanos < 1000000000 ∨ second = 59 then
      withNanos? ⟨hour, minute, second, 0, ht, by decide⟩ nanos
    else none
  else none

/-- The time of day that shows the given second, where `60` is shown by a leap second only. -/
def showing? (hour minute second : Nat) : Option Clock :=
  if second = 60 then mk? hour minute 59 1000000000 else mk? hour minute second 0

/-- The second that the clock shows. -/
def shownSecond (c : Clock) : Nat := c.second + c.nanos / 1000000000

/-- The beginning of the second; a leap second becomes the second before it. -/
def wholeSecond (c : Clock) : Clock := (c.withNanos? 0).getD c

end Clock

namespace Timestamp

/-- The beginning of the second of a timestamp. -/
def wholeSecond (t : Timestamp) : Timestamp := { t with clock := t.clock.wholeSecond }

theorem wholeSecond_wholeSecond (t : Timestamp) : t.wholeSecond.wholeSecond = t.wholeSecond := rfl

/-! ### Writing -/

/-- A year has at least four digits, and a sign if it is negative or needs more than four. -/
def yearText (year : Int) : List Char :=
  if year < 0 then '-' :: padded 4 year.natAbs
  else if year ≤ 9999 then padded 4 year.natAbs
  else '+' :: padded 4 year.natAbs

/-- The text of a timestamp. -/
def text (t : Timestamp) : List Char :=
  yearText t.date.year ++ '-' :: padded 2 t.date.month ++ '-' :: padded 2 t.date.day ++
    ' ' :: padded 2 t.clock.hour ++ ':' :: padded 2 t.clock.minute ++
    ':' :: padded 2 t.clock.shownSecond

/-! ### Reading -/

/-- A year at the front, after blanks: any number of digits after a sign, else at most four. -/
def takeYear? (s : List Char) : Option (Int × List Char) :=
  match skipBlank s with
  | '-' :: r => (takeNat? r.length r).map fun (n, r) => (-(n : Int), r)
  | '+' :: r => (takeNat? r.length r).map fun (n, r) => ((n : Int), r)
  | r => (takeNat? 4 r).map fun (n, r) => ((n : Int), r)

/-- One or two digits at the front, after blanks. -/
def takePair? (s : List Char) : Option (Nat × List Char) := takeNat? 2 (skipBlank s)

/-- Reads a timestamp. Blanks may stand before each number, and any number of them between the date
and the time; nothing may follow the last digit. -/
def read? (s : List Char) : Option Timestamp := do
  let (year, s) ← takeYear? s
  let (month, s) ← takePair? (← after? '-' s)
  let (day, s) ← takePair? (← after? '-' s)
  let (hour, s) ← takePair? s
  let (minute, s) ← takePair? (← after? ':' s)
  let (second, s) ← takePair? (← after? ':' s)
  if s = [] then return ⟨← Date.mk? year month day, ← Clock.showing? hour minute second⟩ else none

end Timestamp

end Keyset
