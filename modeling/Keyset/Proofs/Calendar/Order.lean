import Keyset.Calendar.Timestamp

/-!
# The order of timestamps

Timestamps come in the order of the seconds at which their clocks stand, and then of the nanoseconds
since; so a leap second comes between its own second and the one after it.  The beginning of the
second of a timestamp is not later than it, and two facts say what cutting a timestamp to its second
makes of the order:

* `Timestamp.order_wholeSecond_right` : a timestamp is not later than the beginning of its second
  iff it is that beginning;
* `Timestamp.order_wholeSecond_eq_lt_iff` : **of two timestamps the earlier one comes before the
  beginning of the second of the later one iff they stand at different seconds.**
-/

namespace Keyset

namespace Timestamp

/-- The order of the seconds at which two timestamps stand. -/
def secondOrder : Timestamp → Timestamp → Ordering :=
  compareLex (compareOn (·.date.year)) <|
  compareLex (compareOn (·.date.month)) <|
  compareLex (compareOn (·.date.day)) <|
  compareLex (compareOn (·.clock.hour)) <|
  compareLex (compareOn (·.clock.minute)) (compareOn (·.clock.second))

/-- The order of timestamps, to the nanosecond. -/
def order : Timestamp → Timestamp → Ordering :=
  compareLex secondOrder (compareOn (·.clock.nanos))

instance : Std.TransCmp secondOrder := by
  unfold secondOrder
  infer_instance

instance : Std.TransCmp order := by
  unfold order
  infer_instance

variable {a b t : Timestamp}

theorem secondOrder_self (t : Timestamp) : t.secondOrder t = .eq := Std.ReflCmp.compare_self

theorem order_eq (a b : Timestamp) :
    a.order b = (a.secondOrder b).then (compare a.clock.nanos b.clock.nanos) := rfl

@[simp] theorem secondOrder_wholeSecond_left : a.wholeSecond.secondOrder b = a.secondOrder b := rfl

@[simp] theorem secondOrder_wholeSecond_right : a.secondOrder b.wholeSecond = a.secondOrder b := rfl

@[simp] theorem nanos_wholeSecond : t.wholeSecond.clock.nanos = 0 := rfl

/-- Timestamps are equal iff they stand at one second, as many nanoseconds after it began. -/
theorem eq_iff : a = b ↔ a.secondOrder b = .eq ∧ a.clock.nanos = b.clock.nanos := by
  obtain ⟨⟨_, _, _, _, _⟩, ⟨_, _, _, _, _, _⟩⟩ := a
  obtain ⟨⟨_, _, _, _, _⟩, ⟨_, _, _, _, _, _⟩⟩ := b
  simp [secondOrder, compareLex, compareOn, Ordering.then_eq_eq, and_assoc]

theorem order_eq_eq_iff : a.order b = .eq ↔ a = b := by
  rw [order_eq, Ordering.then_eq_eq, Nat.compare_eq_eq, ← eq_iff]

theorem wholeSecond_eq_wholeSecond_iff :
    a.wholeSecond = b.wholeSecond ↔ a.secondOrder b = .eq := by
  simp [eq_iff]

theorem wholeSecond_eq_self_iff : t.wholeSecond = t ↔ t.clock.nanos = 0 := by
  rw [eq_iff, secondOrder_wholeSecond_left, nanos_wholeSecond, eq_comm (a := 0)]
  exact and_iff_right t.secondOrder_self

/-- The second of a timestamp begins before it, or with it. -/
theorem order_wholeSecond_left (t : Timestamp) : (t.wholeSecond.order t).isLE = true := by
  have hsecond : t.wholeSecond.secondOrder t = .eq := t.secondOrder_self
  rw [order_eq, hsecond, Ordering.eq_then, nanos_wholeSecond, Nat.isLE_compare]
  exact Nat.zero_le _

theorem order_wholeSecond_right :
    (t.order t.wholeSecond).isLE = true ↔ t.wholeSecond = t := by
  have hsecond : t.secondOrder t.wholeSecond = .eq := t.secondOrder_self
  rw [order_eq, hsecond, Ordering.eq_then, nanos_wholeSecond, Nat.isLE_compare,
    wholeSecond_eq_self_iff, Nat.le_zero]

/-- **The earlier one of two timestamps comes before the second of the later one** iff it is not in
this second itself. -/
theorem order_wholeSecond_eq_lt_iff (h : a.order b = .lt) :
    a.order b.wholeSecond = .lt ↔ a.wholeSecond ≠ b.wholeSecond := by
  rw [order_eq, secondOrder_wholeSecond_right, nanos_wholeSecond, ne_eq,
    wholeSecond_eq_wholeSecond_iff]
  rw [order_eq] at h
  cases hsecond : a.secondOrder b with
  | lt => simp
  | eq => simp [Nat.compare_eq_lt]
  | gt => simp [hsecond] at h

end Timestamp

end Keyset
