import Keyset.Proofs.Calendar.Order
import Keyset.Proofs.Value.Literal

/-!
# What literals are read as

A literal says less than its value, so the value that is read from it may be another one:
`Value.ReadsAs` lists the cases.  A text that is read as a value loses nothing more: the literal of
the value is read as this value again, unless it is a double.  A leap second is read as one if it
comes after second `59`, where a calendar has them, and else as the second that follows.

* `Value.readsAs_readBack`, `Value.ReadsAs.readBack_eq` : the cases are those of `Value.readBack`.
* `Value.readBack_of_read?` : a value that was read is read back.
* `Value.literal_reads_back` : **which value the literal of a value is read as.**
* `Value.literal_shows_next_second` : a leap second that is not read as one.
-/

namespace Keyset

open Decimal

namespace Value

/-- The literal of the first value is read as the second one. -/
inductive ReadsAs : Value → Value → Prop
  | null : ReadsAs null null
  | bool (b : Bool) : ReadsAs (bool b) (bool b)
  | integer (n : Int64) : ReadsAs (integer n) (integer n)
  /-- A double that is written like an integer of sixty-four bits. -/
  | whole {x : Double} {n : Int64} (finite : x.isFinite = true)
    (numeral : intOf? x.text = some n.toInt) : ReadsAs (real x) (integer n)
  | real {x : Double} (finite : x.isFinite = true)
    (noNumeral : ∀ n : Int64, intOf? x.text ≠ some n.toInt) : ReadsAs (real x) (real x)
  | notFinite {x : Double} (infinite : x.isFinite = false) : ReadsAs (real x) null
  | text {s : String} (plain : Timestamp.read? s.toList = none) : ReadsAs (text s) (text s)
  /-- A text in the form of a timestamp. -/
  | stamped {s : String} {t : Timestamp} (matching : Timestamp.read? s.toList = some t) :
    ReadsAs (text s) (timestamp t)
  | timestamp {t : Timestamp} (onSecond : t.clock.nanos = 0) : ReadsAs (timestamp t) (timestamp t)
  /-- The nanoseconds are not written. -/
  | cut {t : Timestamp} (within : 1 ≤ t.clock.nanos ∧ t.clock.nanos ≤ 999999999) :
    ReadsAs (timestamp t) (timestamp t.wholeSecond)
  /-- Those of a leap second are not written either, but that it is one, if it is after second
  `59`. -/
  | leap {t u : Timestamp} (leap : 1000000000 ≤ t.clock.nanos) (last : t.clock.second = 59)
    (second : u.wholeSecond = t.wholeSecond) (begins : u.clock.nanos = 1000000000) :
    ReadsAs (timestamp t) (timestamp u)
  /-- A leap second after another second has the text of the second that follows. -/
  | follows {t u : Timestamp} (leap : 1000000000 ≤ t.clock.nanos) (inside : t.clock.second < 59)
    (minute : u.date = t.date ∧ u.clock.hour = t.clock.hour ∧ u.clock.minute = t.clock.minute)
    (second : u.clock.second = t.clock.second + 1) (begins : u.clock.nanos = 0) :
    ReadsAs (timestamp t) (timestamp u)

theorem readsAs_timestamp_shown (t : Timestamp) : ReadsAs (.timestamp t) (.timestamp t.shown) := by
  rcases Nat.lt_or_ge t.clock.nanos 1000000000 with hlt | hge
  · have hshown : t.shown = t.wholeSecond :=
      congrArg (Timestamp.mk t.date) (Clock.shown_eq_wholeSecond hlt)
    rw [hshown]
    rcases Nat.eq_zero_or_pos t.clock.nanos with hzero | hpos
    · rw [Timestamp.wholeSecond_eq_self_iff.2 hzero]
      exact .timestamp hzero
    · exact .cut ⟨hpos, Nat.le_of_lt_succ hlt⟩
  · by_cases hs : t.clock.second < 59
    · have hshown := Clock.shown_of_leap_inside hge hs
      refine .follows hge hs ?_ ?_ ?_ <;> simp only [Timestamp.shown, hshown, and_self]
    · have hlast : t.clock.second = 59 := by
        have := t.clock.time_mem
        omega
      have hshown := Clock.shown_of_leap_last hge hlast
      refine .leap hge hlast ?_ ?_
      · simp only [Timestamp.shown, hshown]
        rfl
      · simp only [Timestamp.shown, hshown]

theorem readsAs_readBack (v : Value) : v.ReadsAs v.readBack := by
  cases v with
  | null => exact .null
  | bool b => exact .bool b
  | integer n => exact .integer n
  | real x =>
    by_cases hx : x.isFinite = true
    · rcases readBack_real hx with ⟨hnone, h⟩ | ⟨n, h, hn⟩
      · rw [h]
        refine .real hx fun n hn => ?_
        rw [ofInteger?_eq_some_iff.2 ⟨n, hn, rfl⟩] at hnone
        cases hnone
      · rw [h]
        exact .whole hx hn
    · rw [readBack, if_neg hx]
      exact .notFinite (Bool.eq_false_iff.2 hx)
  | text s =>
    cases h : Timestamp.read? s.toList with
    | none =>
      rw [readBack_text_of_not_read? h]
      exact .text h
    | some t =>
      rw [readBack_text_of_read? h]
      exact .stamped h
  | timestamp t => exact readsAs_timestamp_shown t

theorem ReadsAs.readBack_eq {v w : Value} (h : v.ReadsAs w) : v.readBack = w := by
  cases h with
  | null => rfl
  | bool b => rfl
  | integer n => rfl
  | @whole x n finite numeral =>
    rw [readBack, if_pos finite, ofInteger?_eq_some_iff.2 ⟨n, numeral, rfl⟩]
    rfl
  | real finite noNumeral =>
    rcases readBack_real finite with ⟨-, h⟩ | ⟨n, -, hn⟩
    · exact h
    · exact absurd hn (noNumeral n)
  | notFinite infinite => rw [readBack, if_neg (Bool.eq_false_iff.1 infinite)]
  | text plain => exact readBack_text_of_not_read? plain
  | stamped matching => exact readBack_text_of_read? matching
  | @timestamp t onSecond =>
    rw [← Timestamp.wholeSecond_eq_self_iff.2 onSecond, readBack_timestamp_wholeSecond]
  | @cut t within =>
    exact congrArg (fun c => Value.timestamp ⟨t.date, c⟩)
      (Clock.shown_eq_wholeSecond (Nat.lt_succ_of_le within.2))
  | @leap t u leap last second begins =>
    refine congrArg Value.timestamp (Timestamp.eq_iff.2 ⟨?_, ?_⟩)
    · rw [← Timestamp.wholeSecond_eq_wholeSecond_iff, second, Timestamp.shown,
        Clock.shown_of_leap_last leap last]
      rfl
    · rw [begins, Timestamp.shown, Clock.shown_of_leap_last leap last]
  | @follows t u leap inside minute second begins =>
    obtain ⟨date, clock⟩ := u
    obtain ⟨_, _, _, _, _, _⟩ := clock
    obtain ⟨rfl, rfl, rfl⟩ := minute
    cases second
    cases begins
    rw [readBack, Timestamp.shown, Clock.shown_of_leap_inside leap inside]

/-! ### Values that were read -/

theorem null_or_bool_of_ofWord? {s : List Char} {v : Value} (h : ofWord? s = some v) :
    v = null ∨ ∃ b, v = bool b := by
  unfold ofWord? at h
  dsimp only at h
  split_ifs at h <;> cases h
  · exact .inl rfl
  · exact .inr ⟨true, rfl⟩
  · exact .inr ⟨false, rfl⟩

theorem readBack_of_ofWord? {s : List Char} {v : Value} (h : ofWord? s = some v) :
    v.readBack = v := by
  obtain rfl | ⟨b, rfl⟩ := null_or_bool_of_ofWord? h <;> rfl

theorem readBack_ofQuoted (body : List Char) : (ofQuoted body).readBack = ofQuoted body := by
  unfold ofQuoted
  cases h : Timestamp.read? (Text.undouble quoteMark body) with
  | none =>
    simp only [h]
    exact readBack_text_of_not_read? (by rwa [String.toList_ofList])
  | some t =>
    simp only [h]
    exact congrArg timestamp (Timestamp.shown_of_read? h)

/-- **A value that was read is read back**, if it is no double. -/
theorem readBack_of_read? {s : List Char} {v : Value} (h : read? s = some v)
    (hreal : ∀ x, v ≠ .real x) : v.readBack = v := by
  simp only [read?, Option.or_eq_some_iff] at h
  rcases h with h | ⟨-, h | ⟨-, h | ⟨-, h⟩⟩⟩
  · exact readBack_of_ofWord? h
  · obtain ⟨body, -, rfl⟩ := Option.map_eq_some_iff.1 h
    exact readBack_ofQuoted body
  · obtain ⟨n, -, rfl⟩ := ofInteger?_eq_some_iff.1 h
    rfl
  · obtain ⟨x, -, rfl⟩ := Option.map_eq_some_iff.1 h
    exact absurd rfl (hreal x)

theorem ofLiteral_eq_ok_iff {s : String} {v : Value} :
    ofLiteral s = .ok v ↔ read? (Text.trim s.toList) = some v := by
  unfold ofLiteral
  dsimp only
  cases read? (Text.trim s.toList) <;> simp

/-- **Every literal is read, and the value that is read is as the list of cases says.**  If the
value itself was read from some text and is no double, it is read back as it is. -/
theorem literal_reads_back (v : Value) :
    (∃ w, ofLiteral v.literal = .ok w) ∧ (∀ w, ofLiteral v.literal = .ok w ↔ v.ReadsAs w) ∧
      ∀ s, ofLiteral s = .ok v → (∀ x, v ≠ .real x) → ofLiteral v.literal = .ok v := by
  rw [ofLiteral_literal]
  refine ⟨⟨_, rfl⟩, fun w => ⟨?_, ?_⟩, fun s hs hreal => ?_⟩
  · intro h
    cases h
    exact v.readsAs_readBack
  · intro h
    rw [h.readBack_eq]
  · rw [readBack_of_read? (ofLiteral_eq_ok_iff.1 hs) hreal]

/-- A leap second after second `4` has the literal of second `5`, and is read as that second. -/
theorem literal_shows_next_second :
    let leap : Timestamp := ⟨⟨2015, 7, 1, by decide, by decide⟩,
      ⟨23, 56, 4, 1333333333, by decide, by decide⟩⟩
    ofLiteral (timestamp leap).literal =
        .ok (timestamp ⟨leap.date, ⟨23, 56, 5, 0, by decide, by decide⟩⟩) ∧
      ¬ ∃ u : Timestamp, ofLiteral (timestamp leap).literal = .ok (timestamp u) ∧
        u.wholeSecond = leap.wholeSecond ∧ u.clock.nanos = 1000000000 := by
  intro leap
  have hread : ofLiteral (timestamp leap).literal =
      .ok (timestamp ⟨leap.date, ⟨23, 56, 5, 0, by decide, by decide⟩⟩) := ofLiteral_literal _
  refine ⟨hread, ?_⟩
  rintro ⟨u, hu, -, hnanos⟩
  rw [hread] at hu
  cases hu
  cases hnanos

/-- A leap second, read from a text with more blanks and fewer digits than its literal has. -/
theorem literal_reads_back_leap :
    let leap : Value := timestamp ⟨⟨2016, 7, 1, by decide, by decide⟩,
      ⟨3, 5, 59, 1000000000, by decide, by decide⟩⟩
    ofLiteral "'2016-7- 1  3:5:60'" = .ok leap ∧ ofLiteral leap.literal = .ok leap := by
  intro leap
  have hread : ofLiteral "'2016-7- 1  3:5:60'" = .ok leap := by decide +kernel
  exact ⟨hread, (literal_reads_back leap).2.2 _ hread nofun⟩

end Value

end Keyset
