import Keyset.Proofs.Calendar.Timestamp
import Keyset.Proofs.Decimal.Shortest

/-!
# Literals are read back

A literal is tried as a word, as a quoted body, as an integer and as a double, in this order.  So
the literal of one kind of value may be read as another kind: a quoted text in the form of a
timestamp is a timestamp, and a double with the numeral of an integer is an integer.
`Value.readBack` is the value that the literal of a value is read as.

* `Double.read?_text` : **the text of a finite double is read as that double.**
* `Value.read?_spelling` : **every literal is read**, as `Value.readBack` says.
* `Value.ofLiteral_literal` : the same with the blanks around a literal taken off.
-/

namespace Keyset

open Decimal Lexeme Text

/-! ### Numerals -/

namespace Decimal

theorem span_digits {ds : List Char} (hd : ∀ c ∈ ds, c.isDigit = true) :
    ds.takeWhile Char.isDigit = ds ∧ ds.dropWhile Char.isDigit = [] := by
  have h : (ds ++ []).takeWhile Char.isDigit = ds ∧ (ds ++ []).dropWhile Char.isDigit = [] :=
    span_append hd (by simp)
  rwa [List.append_nil] at h

theorem natOf?_digits {ds : List Char} (hne : ds ≠ []) (hd : ∀ c ∈ ds, c.isDigit = true) :
    natOf? ds = some (Nat.ofDigitChars 10 ds 0) := by
  rw [natOf?, if_pos ⟨hne, List.all_eq_true.2 hd⟩]

theorem intText_eq (n : ℤ) :
    intText n = (if decide (n < 0) then ['-'] else []) ++ natText n.natAbs := by
  unfold intText
  by_cases hn : n < 0 <;> simp [hn]

theorem head?_natText (n : ℕ) : (natText n).head?.any Char.isDigit = true := by
  have h : (natText n ++ []).head?.any Char.isDigit = true :=
    head?_digits isDigit_of_mem_natText (natText_ne_nil n)
  rwa [List.append_nil] at h

theorem natText_mul_pow {n : ℕ} (hn : 0 < n) (e : ℕ) :
    natText (n * 10 ^ e) = natText n ++ List.replicate e '0' := by
  induction e with
  | zero => simp
  | succ e ih =>
    have hpos : 0 < n * 10 ^ e := by positivity
    have hzero : Nat.toDigits 10 0 = ['0'] := rfl
    rw [List.replicate_succ', ← List.append_assoc, ← ih, ← hzero, natText, natText,
      Nat.toDigits_append_toDigits (by decide) hpos (by decide), Nat.pow_succ, Nat.add_zero,
      ← Nat.mul_assoc, Nat.mul_comm 10]

namespace Numeral

theorem value_written (x : Numeral) : x.written.value = x.value := by
  unfold written
  split_ifs with h
  · obtain ⟨n, hn⟩ := Int.eq_ofNat_of_zero_le h
    simp [value, hn]
  · rfl

theorem exponent_written_le (x : Numeral) : x.written.exponent ≤ 0 := by
  unfold written
  split_ifs with h
  · exact Int.le_refl 0
  · omega

/-- **A written numeral is read with the digits that are written.** -/
theorem read?_text (x : Numeral) : read? x.text = some x.written := by
  by_cases hx : 0 ≤ x.exponent
  · obtain ⟨ds, hne, hd, htext, hwritten⟩ := exists_text_eq_digits hx
    obtain ⟨htake, hdrop⟩ := span_digits hd
    rw [htext, hwritten, read?]
    simp [spanDigits, htake, hdrop, hne, exponentOf?]
  · obtain ⟨whole, places, hne, -, hw, hp, htext, hwritten⟩ := exists_text_eq_point hx
    have hpoint : ∀ c ∈ ('.' :: places).head?, c.isDigit = false := by
      rintro _ ⟨⟩
      rfl
    obtain ⟨htake, hdrop⟩ := span_append hw hpoint
    obtain ⟨htake', hdrop'⟩ := span_digits hp
    rw [htext, hwritten, read?]
    simp [spanDigits, htake, hdrop, htake', hdrop', hne, exponentOf?]

/-- A numeral that does not begin with superfluous zeros is written with the digits of its
coefficient, if it has no places. -/
theorem text_eq_natText {x : Numeral} (hx : 0 ≤ x.exponent) (hne : x.coefficient ≠ 0) :
    x.text = natText x.written.coefficient := by
  rw [text, written, if_pos hx, if_pos hx, Nat.pow_eq, natText_mul_pow (Nat.pos_of_ne_zero hne)]

theorem natOf?_text (x : Numeral) :
    natOf? x.text = if 0 ≤ x.exponent then some x.written.coefficient else none := by
  split_ifs with hx
  · obtain ⟨ds, hne, hd, htext, hwritten⟩ := exists_text_eq_digits hx
    rw [htext, hwritten, natOf?_digits hne hd]
  · obtain ⟨whole, places, -, -, -, -, htext, -⟩ := exists_text_eq_point hx
    rw [natOf?_eq_none_iff, htext]
    exact .inr ⟨'.', by simp, rfl⟩

end Numeral

theorem coefficient_shortest_ne_zero {L : BinaryLayout} {rank : ℕ} (hrank : rank ≠ 0) :
    (shortest L rank).coefficient ≠ 0 :=
  coefficient_ne_zero_of_contains hrank (contains_shortest hrank)

theorem text_shortest {L : BinaryLayout} {rank : ℕ} (hx : 0 ≤ (shortest L rank).exponent) :
    (shortest L rank).text = natText (shortest L rank).written.coefficient := by
  by_cases hrank : rank = 0
  · rw [shortest, if_pos hrank]
    rfl
  · exact Numeral.text_eq_natText hx (coefficient_shortest_ne_zero hrank)

end Decimal

/-! ### Doubles -/

theorem Double.rankOf_written_shortest (rank : ℕ) :
    rankOf binary64 (shortest binary64 rank).written = rank := by
  by_cases hrank : rank = 0
  · rw [hrank]
    rfl
  · refine rankOf_eq_of_contains hrank (Numeral.exponent_written_le _) ?_
    rw [Numeral.value_written]
    exact contains_shortest hrank

theorem Decimal.splitSign_append {s : List Char} (negative : Bool)
    (hs : s.head?.any Char.isDigit = true) :
    splitSign ((if negative then ['-'] else []) ++ s) = (negative, s) := by
  cases negative with
  | true => rfl
  | false =>
    cases s with
    | nil => cases hs
    | cons c s =>
      have hc : c.isDigit = true := hs
      simp only [Bool.false_eq_true, if_false, List.nil_append]
      unfold splitSign
      split
      next h =>
        cases h
        cases hc
      next h =>
        cases h
        cases hc
      next => rfl

theorem Decimal.intOf?_intText (n : ℤ) : intOf? (intText n) = some n := by
  rw [intOf?, intText_eq, splitSign_append _ (head?_natText _), natOf?_natText]
  simp only [Option.map_some, decide_eq_true_eq, Option.some.injEq]
  split_ifs <;> omega

theorem Lexeme.map_toLower_ne {s w : List Char} (hs : s.head?.any Char.isDigit = true)
    (hw : w.head?.any Char.isDigit = false) : s.map Char.toLower ≠ w := by
  rintro rfl
  cases s with
  | nil => cases hs
  | cons c s =>
    have hc : c.isDigit = true := hs
    have hupper : ¬ c.isUpper = true := by
      rw [(not_mark_of_isDigit (d := .sqlite) hc).2.2]
      exact Bool.false_ne_true
    have hlower : c.toLower = c := by
      unfold Char.toLower
      exact dif_neg fun h => hupper (decide_eq_true h)
    simp [hlower, hc] at hw

/-- **The text of a finite double is read as that double.** -/
theorem Double.read?_text {x : Double} (h : x.isFinite = true) : read? x.text = some x := by
  cases x with
  | nan => cases h
  | infinite negative => cases h
  | finite negative rank =>
    have hdigit : (shortest binary64 rank).text.head?.any Char.isDigit = true := by
      simpa using head?_text (shortest binary64 rank) []
    have hword (w : String) (hw : w.toList.head?.any Char.isDigit = false) :=
      map_toLower_ne hdigit hw
    rw [read?, readWith, text, splitSign_append negative hdigit]
    simp only [hword "inf" (by decide), hword "infinity" (by decide), hword "nan" (by decide),
      or_self, if_false, Numeral.read?_text, Option.map_some, ofNumeral, rankOf_written_shortest]
    rw [ofRank, dif_pos rank.isLt]

/-- A finite double whose text is the numeral of an integer has the text of that integer, unless it
is the negative zero. -/
theorem Double.intText_eq_text_iff {negative : Bool} {rank : Fin binary64.size} {n : ℤ}
    (h : intOf? (text (.finite negative rank)) = some n) :
    intText n = text (.finite negative rank) ↔ ¬ (negative = true ∧ rank.val = 0) := by
  have hdigit : (shortest binary64 rank).text.head?.any Char.isDigit = true := by
    simpa using head?_text (shortest binary64 rank) []
  rw [intOf?, text, splitSign_append negative hdigit, Numeral.natOf?_text] at h
  obtain ⟨k, hk, hn⟩ := Option.map_eq_some_iff.1 h
  split_ifs at hk with hexp
  cases hk
  have hzero : (shortest binary64 rank).written.coefficient = 0 ↔ rank.val = 0 := by
    constructor
    · intro hcoefficient
      by_contra hrank
      have hne := coefficient_shortest_ne_zero (L := binary64) hrank
      rw [Numeral.written, if_pos hexp] at hcoefficient
      simp [hne] at hcoefficient
    · intro hrank
      rw [hrank]
      rfl
  rw [text, text_shortest hexp, intText_eq, ← hzero]
  generalize (shortest binary64 rank).written.coefficient = k at hn
  cases negative with
  | false =>
    obtain rfl : (k : ℤ) = n := hn
    simp
  | true =>
    obtain rfl : -(k : ℤ) = n := hn
    by_cases hk : k = 0
    · simp [hk]
    · have hneg : 0 < k := Nat.pos_of_ne_zero hk
      simp [hk, hneg]

namespace Value

/-! ### Trying the kinds of literals -/

/-- A text that begins like a number. -/
def OpensNumber (s : List Char) : Prop := ∃ c ∈ s.head?, c.isDigit = true ∨ c = '-'

theorem opensNumber_append {s : List Char} (negative : Bool)
    (hs : s.head?.any Char.isDigit = true) :
    OpensNumber ((if negative then ['-'] else []) ++ s) := by
  cases negative with
  | true => exact ⟨'-', rfl, .inr rfl⟩
  | false =>
    cases s with
    | nil => cases hs
    | cons c s => exact ⟨c, rfl, .inl hs⟩

theorem opensNumber_intText (n : ℤ) : OpensNumber (intText n) := by
  rw [intText_eq]
  exact opensNumber_append _ (head?_natText _)

theorem opensNumber_text {x : Double} (hx : x.isFinite = true) : OpensNumber x.text := by
  cases x with
  | nan => cases hx
  | infinite negative => cases hx
  | finite negative rank =>
    exact opensNumber_append negative (by simpa using head?_text (shortest binary64 rank) [])

/-- What begins like a number is read as one. -/
theorem read?_of_opensNumber {s : List Char} (h : OpensNumber s) :
    read? s = (ofInteger? s).or ((Double.read? s).map real) := by
  obtain ⟨c, hc, hnumber⟩ := h
  cases s with
  | nil => cases hc
  | cons b s =>
    cases hc
    have hmark : c ≠ quoteMark := by
      rintro rfl
      revert hnumber
      decide
    have hword : ofWord? (c :: s) = none := by
      have hne (w : String) (b : Char) (hw : w.toList.head? = some b) (hminus : '-' ≠ b)
          (hdigit : b.isDigit = false) : (c :: s).map Char.toLower ≠ w.toList := by
        rcases hnumber with hnumber | rfl
        · exact map_toLower_ne hnumber (by rw [hw]; exact hdigit)
        · intro he
          rw [← he] at hw
          exact hminus (Option.some.inj hw)
      simp only [ofWord?, hne "null" 'n' rfl (by decide) rfl, hne "true" 't' rfl (by decide) rfl,
        hne "false" 'f' rfl (by decide) rfl, if_false]
    rw [Value.read?, hword, between?, if_neg (fun h => hmark h.1)]
    rfl

/-! ### Reading back -/

/-- The value that the literal of a value is read as. -/
def readBack : Value → Value
  | real x => if x.isFinite then (ofInteger? x.text).getD (real x) else null
  | text s => ((Timestamp.read? s.toList).map timestamp).getD (text s)
  | timestamp t => timestamp t.shown
  | v => v

theorem ofInteger?_eq_some_iff {s : List Char} {v : Value} :
    ofInteger? s = some v ↔ ∃ n : Int64, intOf? s = some n.toInt ∧ v = integer n := by
  have hmin : Int64.minValue.toInt = -2 ^ 63 := by decide
  have hmax : Int64.maxValue.toInt = 2 ^ 63 - 1 := by decide
  constructor
  · intro h
    obtain ⟨n, hn, hv⟩ := Option.bind_eq_some_iff.1 h
    rw [hmin, hmax] at hv
    split_ifs at hv with hrange
    cases hv
    exact ⟨_, by rw [Int64.toInt_ofInt_of_le hrange.1 (by omega), hn], rfl⟩
  · rintro ⟨n, hn, rfl⟩
    have hlow := n.le_toInt
    have hhigh := n.toInt_lt
    refine Option.bind_eq_some_iff.2 ⟨n.toInt, hn, ?_⟩
    rw [hmin, hmax, if_pos (by omega), Int64.ofInt_toInt]

theorem readBack_text_of_read? {s : String} {t : Timestamp}
    (h : Timestamp.read? s.toList = some t) : readBack (text s) = timestamp t := by
  rw [readBack, h]
  rfl

theorem readBack_text_of_not_read? {s : String} (h : Timestamp.read? s.toList = none) :
    readBack (text s) = text s := by
  rw [readBack, h]
  rfl

theorem readBack_timestamp_wholeSecond (t : Timestamp) :
    readBack (timestamp t.wholeSecond) = timestamp t.wholeSecond := by
  rw [readBack, Timestamp.shown_wholeSecond]

/-- A finite double is read as an integer if its text is the numeral of one, and as itself
otherwise. -/
theorem readBack_real {x : Double} (hx : x.isFinite = true) :
    (ofInteger? x.text = none ∧ readBack (real x) = real x) ∨
      ∃ n : Int64, readBack (real x) = integer n ∧ intOf? x.text = some n.toInt := by
  rw [readBack, if_pos hx]
  cases h : ofInteger? x.text with
  | none => exact .inl ⟨rfl, rfl⟩
  | some v =>
    obtain ⟨n, hn, rfl⟩ := ofInteger?_eq_some_iff.1 h
    exact .inr ⟨n, rfl, hn⟩

theorem spelling_timestamp (t : Timestamp) :
    spelling (timestamp t) = quote quoteMark t.text := by
  rw [quote, double_of_not_mem (quoteMark_not_mem_timestamp t)]
  rfl

/-- A quoted body is a timestamp if it has the form of one, and else a text. -/
theorem read?_quote (s : List Char) :
    read? (quote quoteMark s) =
      some (((Timestamp.read? s).map timestamp).getD (text (String.ofList s))) := by
  have hword : ofWord? (quote quoteMark s) = none := ofWord?_quote _
  rw [Value.read?, hword, between?_quote, Option.map_some, ofQuoted, undouble_double]
  cases Timestamp.read? s <;> rfl

/-- **Every literal is read**, possibly as a value of another kind. -/
theorem read?_spelling (v : Value) : read? v.spelling = some v.readBack := by
  cases v with
  | null => rfl
  | bool b => cases b <;> rfl
  | integer n =>
    rw [spelling, read?_of_opensNumber (opensNumber_intText _),
      ofInteger?_eq_some_iff.2 ⟨n, intOf?_intText _, rfl⟩]
    rfl
  | real x =>
    by_cases hx : x.isFinite = true
    · rw [spelling, if_pos hx, read?_of_opensNumber (opensNumber_text hx), Double.read?_text hx,
        readBack, if_pos hx]
      cases ofInteger? x.text <;> rfl
    · rw [spelling, if_neg hx, readBack, if_neg hx]
      rfl
  | text s => rw [spelling, read?_quote, String.ofList_toList, readBack]
  | timestamp t =>
    rw [spelling_timestamp, read?_quote, Timestamp.read?_text]
    rfl

end Value

/-! ### Blanks around literals -/

/-- No blanks stand at the ends of the text. -/
def Text.Trimmed (s : List Char) : Prop :=
  (∀ c ∈ s.head?, isBlank c = false) ∧ ∀ c ∈ s.getLast?, isBlank c = false

theorem Text.Trimmed.trim_eq {s : List Char} (h : Trimmed s) : trim s = s := by
  have hback : ∀ c ∈ s.reverse.head?, isBlank c = false := by
    rw [List.head?_reverse]
    exact h.2
  rw [trim, skipBlank_eq_self h.1, skipBlank_eq_self hback, List.reverse_reverse]

theorem Text.trimmed_of_all {s : List Char} (h : s.all (!isBlank ·) = true) : Trimmed s := by
  have hall : ∀ c ∈ s, isBlank c = false := by simpa using h
  exact ⟨fun c hc => hall c (List.mem_of_mem_head? hc),
    fun c hc => hall c (List.mem_of_getLast? hc)⟩

theorem Text.trimmed_between (body : List Char) :
    Trimmed (Value.quoteMark :: (body ++ [Value.quoteMark])) := by
  have hmark : isBlank Value.quoteMark = false := by decide
  constructor
  · rintro _ ⟨⟩
    exact hmark
  · intro c hc
    rw [← List.cons_append, List.getLast?_append] at hc
    cases hc
    exact hmark

theorem Text.trimmed_quote (s : List Char) : Trimmed (quote Value.quoteMark s) :=
  trimmed_between _

theorem Text.trimmed_number {s : List Char} (negative : Bool)
    (hhead : s.head?.any Char.isDigit = true) (hlast : s.getLast?.any Char.isDigit = true) :
    Trimmed ((if negative then ['-'] else []) ++ s) := by
  constructor
  · intro c hc
    obtain ⟨b, hb, hdigit | rfl⟩ := Value.opensNumber_append negative hhead
    · rw [hb] at hc
      cases hc
      exact isBlank_eq_false_of_isDigit hdigit
    · rw [hb] at hc
      cases hc
      decide
  · intro c hc
    obtain ⟨b, hb, hdigit⟩ := (Option.any_eq_true _ _).1 hlast
    rw [List.getLast?_append, hb] at hc
    cases hc
    exact isBlank_eq_false_of_isDigit hdigit

theorem Lexeme.getLast?_digits {s : List Char} (hs : ∀ c ∈ s, c.isDigit = true) (hne : s ≠ []) :
    s.getLast?.any Char.isDigit = true := by
  rw [List.getLast?_eq_some_getLast hne]
  exact hs _ (List.getLast_mem hne)

theorem Decimal.Numeral.getLast?_text (x : Numeral) :
    x.text.getLast?.any Char.isDigit = true := by
  by_cases hx : 0 ≤ x.exponent
  · obtain ⟨ds, hne, hd, htext, -⟩ := exists_text_eq_digits hx
    rw [htext]
    exact getLast?_digits hd hne
  · obtain ⟨whole, places, -, hne, -, hp, htext, -⟩ := exists_text_eq_point hx
    obtain ⟨b, hb, hdigit⟩ := (Option.any_eq_true _ _).1 (getLast?_digits hp hne)
    rw [htext, List.getLast?_append, List.getLast?_cons, hb]
    exact hdigit

namespace Value

theorem trimmed_spelling (v : Value) : Trimmed v.spelling := by
  cases v with
  | null => exact trimmed_of_all (by decide)
  | bool b => cases b <;> exact trimmed_of_all (by decide)
  | integer n =>
    rw [spelling, intText_eq]
    exact trimmed_number _ (head?_natText _)
      (getLast?_digits isDigit_of_mem_natText (natText_ne_nil _))
  | real x =>
    cases x with
    | nan => exact trimmed_of_all (by decide)
    | infinite negative => exact trimmed_of_all (s := "NULL".toList) (by decide)
    | finite negative rank =>
      exact trimmed_number negative (by simpa using head?_text (shortest binary64 rank) [])
        (Numeral.getLast?_text _)
  | text s => exact trimmed_quote _
  | timestamp t => rw [spelling_timestamp]; exact trimmed_quote _

/-- **Every literal is read**, with no blanks to be taken off. -/
theorem ofLiteral_literal (v : Value) : ofLiteral v.literal = .ok v.readBack := by
  rw [ofLiteral, literal, String.toList_ofList, (trimmed_spelling v).trim_eq]
  simp only [read?_spelling]

end Value

end Keyset
