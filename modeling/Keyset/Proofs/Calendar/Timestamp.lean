import Keyset.Proofs.Sql.Rendering
import Mathlib.Algebra.Group.Nat.Defs

/-!
# Timestamps are read back

A written timestamp has each of its numbers in a fixed place, so it is read back up to what is not
written: the nanoseconds after the second that the clock shows.

* `Decimal.takeNat?_append` : a run of digits is taken as a whole if no digit may follow it.
* `Timestamp.read?_text` : **a written timestamp is read as the beginning of the second it shows.**
* `Timestamp.shown_of_read?` : a timestamp that is read is the beginning of the second it shows.
-/

namespace Keyset

open Decimal Lexeme Text

theorem Text.isBlank_eq_false_of_isDigit {c : Char} (h : c.isDigit = true) : isBlank c = false := by
  have hrange : 48 ≤ c.toNat ∧ c.toNat ≤ 57 := by
    simpa [Char.isDigit, UInt32.le_iff_toNat_le] using h
  simp only [isBlank, blankRanges, List.any_cons, List.any_nil, Bool.or_eq_false_iff,
    Bool.and_eq_false_iff, decide_eq_false_iff_not, and_true]
  omega

theorem Text.skipBlank_eq_self {s : List Char} (h : ∀ c ∈ s.head?, isBlank c = false) :
    skipBlank s = s := by
  cases s with
  | nil => rfl
  | cons c s => exact List.dropWhile_cons_of_neg (by simp [h c rfl])

/-! ### Numbers of a fixed width -/

theorem Decimal.head?_padded (width n : Nat) (t : List Char) :
    ∃ c s, padded width n ++ t = c :: s ∧ c.isDigit = true := by
  cases h : padded width n with
  | nil =>
    have := (List.append_eq_nil_iff.1 h).2
    exact absurd this (natText_ne_nil n)
  | cons c s =>
    have hc : c ∈ padded width n := h ▸ List.mem_cons_self
    exact ⟨c, s ++ t, rfl, isDigit_of_mem_padded c hc⟩

theorem Decimal.length_padded {width n : Nat} (hwidth : 0 < width) (hn : n < 10 ^ width) :
    (padded width n).length = width := by
  have hlen : (natText n).length ≤ width := (Nat.length_toDigits_le_iff (by decide) hwidth).2 hn
  rw [padded, List.length_append, List.length_replicate]
  omega

variable {rest : List Char}

/-- **A run of digits is taken as a whole** if it fits and no digit that is taken follows it. -/
theorem Decimal.takeNat?_append {most : Nat} {ds : List Char} (hd : ∀ c ∈ ds, c.isDigit = true)
    (hne : ds ≠ []) (hlen : ds.length ≤ most)
    (hrest : ds.length = most ∨ ∀ c ∈ rest.head?, c.isDigit = false) :
    takeNat? most (ds ++ rest) = some (Nat.ofDigitChars 10 ds 0, rest) := by
  have htake : ((ds ++ rest).take most).takeWhile Char.isDigit = ds := by
    rw [List.take_append, List.take_of_length_le hlen]
    refine (span_append hd ?_).1
    intro c hc
    rcases hrest with hfull | hrest
    · simp [hfull] at hc
    · refine hrest c ?_
      cases rest with
      | nil => simp at hc
      | cons a rest =>
        rw [List.head?_take] at hc
        split at hc
        · cases hc
        · exact hc
  unfold takeNat?
  simp only [htake, if_neg hne, List.drop_left]

theorem Decimal.takeNat?_padded {width n : Nat} (hwidth : 0 < width) (hn : n < 10 ^ width) :
    takeNat? width (padded width n ++ rest) = some (n, rest) := by
  have hlen := length_padded hwidth hn
  have hne : padded width n ≠ [] := List.ne_nil_of_length_pos (by omega)
  rw [takeNat?_append isDigit_of_mem_padded hne (Nat.le_of_eq hlen) (.inl hlen),
    ofDigitChars_padded]

theorem Decimal.takeNat?_length_padded (width n : Nat)
    (hrest : ∀ c ∈ rest.head?, c.isDigit = false) :
    takeNat? (padded width n ++ rest).length (padded width n ++ rest) = some (n, rest) := by
  have hne : padded width n ≠ [] := by simp [padded, natText_ne_nil]
  rw [takeNat?_append isDigit_of_mem_padded hne (by simp) (.inr hrest), ofDigitChars_padded]

theorem Text.skipBlank_padded (width n : Nat) (rest : List Char) :
    skipBlank (padded width n ++ rest) = padded width n ++ rest := by
  obtain ⟨c, s, hs, hc⟩ := head?_padded width n rest
  refine skipBlank_eq_self ?_
  rw [hs]
  rintro _ ⟨⟩
  exact isBlank_eq_false_of_isDigit hc

namespace Timestamp

theorem takePair?_padded {n : Nat} (hn : n < 100) :
    takePair? (padded 2 n ++ rest) = some (n, rest) := by
  rw [takePair?, skipBlank_padded, takeNat?_padded (by decide) hn]

theorem takeYear?_yearText (year : Int) (hrest : ∀ c ∈ rest.head?, c.isDigit = false) :
    takeYear? (yearText year ++ rest) = some (year, rest) := by
  have hminus : isBlank '-' = false := by decide
  have hplus : isBlank '+' = false := by decide
  unfold yearText
  split
  · rw [takeYear?, skipBlank_eq_self (by simp [hminus])]
    simp only [List.cons_append, takeNat?_length_padded 4 year.natAbs hrest, Option.map_some]
    congr 2
    omega
  split
  · obtain ⟨c, s, hs, hc⟩ := head?_padded 4 year.natAbs rest
    have htake : takeNat? 4 (padded 4 year.natAbs ++ rest) = some (year.natAbs, rest) :=
      takeNat?_padded (by decide) (by omega)
    rw [takeYear?, skipBlank_padded]
    rw [hs] at htake ⊢
    split
    next h =>
      cases h
      cases hc
    next h =>
      cases h
      cases hc
    next =>
      simp only [htake, Option.map_some]
      congr 2
      omega
  · rw [takeYear?, skipBlank_eq_self (by simp [hplus])]
    simp only [List.cons_append, takeNat?_length_padded 4 year.natAbs hrest, Option.map_some]
    congr 2
    omega

end Timestamp

/-! ### Dates and clocks -/

theorem Calendar.daysIn_le (year : Int) (month : Nat) : daysIn year month ≤ 31 := by
  unfold daysIn
  split
  case h_12 => split <;> omega
  all_goals omega

theorem Calendar.month_le_of_daysIn_pos {year : Int} {month : Nat} (h : 0 < daysIn year month) :
    month ≤ 12 := by
  unfold daysIn at h
  split at h <;> omega

theorem Date.mk?_self (d : Date) : Date.mk? d.year d.month d.day = some d := by
  rw [mk?, dif_pos d.year_mem, dif_pos d.day_mem]

namespace Clock

/-- The beginning of the second that the clock shows. During a leap second this is the leap second
itself after second `59`, and else the second that follows. -/
def shown (c : Clock) : Clock :=
  if c.nanos < 1000000000 then c.wholeSecond
  else if hs : c.second < 59 then
    ⟨c.hour, c.minute, c.second + 1, 0,
      ⟨c.time_mem.1, c.time_mem.2.1, Nat.succ_lt_succ hs⟩, c.wholeSecond.nanos_mem⟩
  else { c with nanos := 1000000000, nanos_mem := by decide }

theorem shown_eq_wholeSecond {c : Clock} (h : c.nanos < 1000000000) : c.shown = c.wholeSecond :=
  if_pos h

theorem shown_of_leap_inside {c : Clock} (h : 1000000000 ≤ c.nanos) (hs : c.second < 59) :
    c.shown = ⟨c.hour, c.minute, c.second + 1, 0,
      ⟨c.time_mem.1, c.time_mem.2.1, Nat.succ_lt_succ hs⟩, by decide⟩ := by
  rw [shown, if_neg (Nat.not_lt.2 h), dif_pos hs]

theorem shown_of_leap_last {c : Clock} (h : 1000000000 ≤ c.nanos) (hs : c.second = 59) :
    c.shown = ⟨c.hour, c.minute, c.second, 1000000000, c.time_mem, by decide⟩ := by
  rw [shown, if_neg (Nat.not_lt.2 h), dif_neg (by omega)]

theorem mk?_wholeSecond (c : Clock) : mk? c.hour c.minute c.second 0 = some c.wholeSecond := by
  rw [mk?, dif_pos c.time_mem, if_pos (.inl (by decide))]
  rfl

theorem showing?_shownSecond (c : Clock) :
    showing? c.hour c.minute c.shownSecond = some c.shown := by
  have ht := c.time_mem
  have hn := c.nanos_mem
  rcases Nat.lt_or_ge c.nanos 1000000000 with hlt | hge
  · rw [shown_eq_wholeSecond hlt, showing?, shownSecond, Nat.div_eq_of_lt hlt, Nat.add_zero,
      if_neg (by omega), mk?_wholeSecond]
  · -- a leap second
    have hq : c.nanos / 1000000000 = 1 := by omega
    rw [showing?, shownSecond, hq]
    by_cases hs : c.second < 59
    · rw [shown_of_leap_inside hge hs, if_neg (by omega)]
      exact mk?_wholeSecond ⟨c.hour, c.minute, c.second + 1, 0, by omega, by decide⟩
    · have hlast : c.second = 59 := by omega
      rw [shown_of_leap_last hge hlast, if_pos (by omega), mk?, dif_pos (by omega),
        if_pos (.inr rfl)]
      simp only [withNanos?, hlast]
      rfl

theorem withNanos?_eq_some {c c' : Clock} {nanos : Nat} (h : c.withNanos? nanos = some c') :
    c'.second = c.second ∧ c'.nanos = nanos := by
  unfold withNanos? at h
  split at h
  · cases h
    exact ⟨rfl, rfl⟩
  · cases h

theorem mk?_eq_some {hour minute second nanos : Nat} {c : Clock}
    (h : mk? hour minute second nanos = some c) : c.second = second ∧ c.nanos = nanos := by
  unfold mk? at h
  split at h
  · split at h
    · exact withNanos?_eq_some h
    · cases h
  · cases h

/-- A time of day that is read is the beginning of the second it shows. -/
theorem shown_of_showing? {hour minute second : Nat} {c : Clock}
    (h : showing? hour minute second = some c) : c.shown = c := by
  unfold showing? at h
  split at h
  · obtain ⟨hsecond, hnanos⟩ := mk?_eq_some h
    obtain ⟨_, _, _, _, _, _⟩ := c
    cases hsecond
    cases hnanos
    rfl
  · obtain ⟨-, hnanos⟩ := mk?_eq_some h
    obtain ⟨_, _, _, _, _, _⟩ := c
    cases hnanos
    rfl

end Clock

namespace Timestamp

/-- The beginning of the second that a timestamp shows. -/
def shown (t : Timestamp) : Timestamp := { t with clock := t.clock.shown }

/-- **A written timestamp is read as the beginning of the second it shows.** -/
theorem read?_text (t : Timestamp) : read? t.text = some t.shown := by
  have hmonth : t.date.month < 100 := by
    have := Calendar.month_le_of_daysIn_pos (Nat.lt_of_lt_of_le t.date.day_mem.1 t.date.day_mem.2)
    omega
  have hday : t.date.day < 100 := by
    have := Calendar.daysIn_le t.date.year t.date.month
    have := t.date.day_mem.2
    omega
  have htime := t.clock.time_mem
  have hsecond : t.clock.shownSecond < 100 := by
    have := t.clock.nanos_mem
    unfold Clock.shownSecond
    omega
  have hblank (s : List Char) : takePair? (' ' :: s) = takePair? s := by
    have hspace : isBlank ' ' = true := by decide
    rw [takePair?, takePair?, skipBlank, List.dropWhile_cons_of_pos hspace]
    rfl
  have hend : takePair? (padded 2 t.clock.shownSecond ++ []) = some (t.clock.shownSecond, []) :=
    takePair?_padded hsecond
  rw [List.append_nil] at hend
  unfold read? text
  simp only [List.append_assoc, List.cons_append]
  rw [takeYear?_yearText _ (by simp)]
  simp only [Option.bind_eq_bind, Option.bind_some, Option.pure_def, after?, if_true, hblank,
    takePair?_padded hmonth, takePair?_padded hday, takePair?_padded (n := t.clock.hour) (by omega),
    takePair?_padded (n := t.clock.minute) (by omega), hend, Date.mk?_self,
    Clock.showing?_shownSecond]
  rfl

/-- **A timestamp that is read is the beginning of the second it shows.** -/
theorem shown_of_read? {s : List Char} {t : Timestamp} (h : read? s = some t) : t.shown = t := by
  simp only [read?, Option.bind_eq_bind, Option.bind_eq_some_iff, Prod.exists] at h
  obtain ⟨year, -, -, -, -, month, -, -, -, -, day, -, -, hour, -, -, -, -, minute, -, -, -, -,
    second, rest, -, h⟩ := h
  split at h
  · obtain ⟨date, -, h⟩ := Option.bind_eq_some_iff.1 h
    obtain ⟨clock, hclock, h⟩ := Option.bind_eq_some_iff.1 h
    cases h
    simp only [shown, Clock.shown_of_showing? hclock]
  · cases h

theorem shown_wholeSecond (t : Timestamp) : t.wholeSecond.shown = t.wholeSecond := by
  have hzero : t.clock.wholeSecond.nanos < 1000000000 := by
    show 0 < 1000000000
    decide
  simp only [shown, wholeSecond, Clock.shown_eq_wholeSecond hzero]
  rfl

end Timestamp

end Keyset
