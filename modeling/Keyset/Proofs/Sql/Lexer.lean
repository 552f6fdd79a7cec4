import Keyset.Sql.Dialect
import Keyset.Value

/-!
# A lexer for statements

The text of a statement is a row of lexemes: words of upper-case letters, quoted names and strings
in which the mark is doubled, signed decimal numbers, and signs.  Blanks separate lexemes and every
lexeme is as long as it can be.  `lex` takes a text apart.

Strings are read in the standard syntax for every dialect: a doubled mark is the only escape, and a
backslash is a character like any other.  A server whose strings have backslash escapes as well is
treated apart, in `Keyset.Proofs.Sql.Backslash`.

A lexeme is read back from its text whatever follows it, as long as that does not carry it on.
Here it is the end of the text, a blank, a comma or a parenthesis, which is what `Stops` says.

* `take?_name`, `take?_string` : a quoted text ends at its own last mark and at no other.
* `take?_word`, `take?_nat`, `take?_numeral` : words and numbers.
* `lex_of_take?` : reading a text is reading its first lexeme and then the rest.
-/

namespace Keyset

open Decimal Text

/-- A lexeme of the text of a statement. -/
inductive Lexeme
  | word (text : String)
  | name (text : String)
  | string (text : String)
  /-- A number: its sign, and its digits as they are written. -/
  | number (negative : Bool) (x : Numeral)
  | sign (text : String)
deriving DecidableEq

namespace Lexeme

/-! ### Reading one lexeme -/

/-- A letter of a word. -/
def inWord (c : Char) : Bool := c.isUpper || c = '_'

/-- The text up to the mark that ends it, with doubled marks made one, and what follows. -/
def takeQuoted? (q : Char) : List Char → Option (List Char × List Char)
  | [] => none
  | [c] => if c = q then some ([], []) else none
  | a :: b :: s =>
    if a ≠ q then (takeQuoted? q (b :: s)).map fun (body, rest) => (a :: body, rest)
    else if b = q then (takeQuoted? q s).map fun (body, rest) => (q :: body, rest)
    else some ([], b :: s)

/-- The digits at the front, with the places after a point if there are any, and what follows. -/
def takeNumber (negative : Bool) (s : List Char) : Lexeme × List Char :=
  let (whole, rest) := spanDigits s
  match rest with
  | '.' :: t =>
    let (places, after) := spanDigits t
    if places = [] then (number negative ⟨Nat.ofDigitChars 10 whole 0, 0⟩, rest)
    else (number negative ⟨Nat.ofDigitChars 10 (whole ++ places) 0, -places.length⟩, after)
  | _ => (number negative ⟨Nat.ofDigitChars 10 whole 0, 0⟩, rest)

/-- The longest sign at the front, and what follows. -/
def takeSign? : List Char → Option (Lexeme × List Char)
  | '<' :: '=' :: s => some (sign "<=", s)
  | '<' :: '>' :: s => some (sign "<>", s)
  | '>' :: '=' :: s => some (sign ">=", s)
  | c :: s => if c ∈ "(),.*=<>".toList then some (sign (String.singleton c), s) else none
  | [] => none

/-- The lexeme at the front, and what follows.  The dialect settles the mark of names alone: strings
have the standard syntax, without backslash escapes, in all of them. -/
def take? (d : Dialect) : List Char → Option (Lexeme × List Char)
  | [] => none
  | c :: s =>
    if c = d.nameMark then
      (takeQuoted? c s).map fun (body, rest) => (name (String.ofList body), rest)
    else if c = Value.quoteMark then
      (takeQuoted? c s).map fun (body, rest) => (string (String.ofList body), rest)
    else if c.isUpper then
      some (word (String.ofList (c :: s.takeWhile inWord)), s.dropWhile inWord)
    else if c.isDigit then some (takeNumber false (c :: s))
    else if (c = '-' ∨ c = '+') ∧ s.head?.any Char.isDigit then some (takeNumber (c = '-') s)
    else takeSign? (c :: s)

/-! ### What is read is shorter -/

theorem length_lt_of_takeQuoted? {q : Char} {s body rest : List Char}
    (h : takeQuoted? q s = some (body, rest)) : rest.length < s.length := by
  induction s using takeQuoted?.induct q generalizing body with
  | case1 => cases h
  | case2 =>
    rw [takeQuoted?, if_pos rfl] at h
    cases h
    exact Nat.lt_succ_self _
  | case3 c hc =>
    rw [takeQuoted?, if_neg hc] at h
    cases h
  | case4 a b s ha ih =>
    rw [takeQuoted?, if_pos ha, Option.map_eq_some_iff] at h
    obtain ⟨p, h, he⟩ := h
    cases he
    exact Nat.lt_succ_of_lt (ih h)
  | case5 a s ha ih =>
    rw [takeQuoted?, if_neg ha, if_pos rfl, Option.map_eq_some_iff] at h
    obtain ⟨p, h, he⟩ := h
    cases he
    exact Nat.lt_succ_of_lt (Nat.lt_succ_of_lt (ih h))
  | case6 a b s ha hb =>
    rw [takeQuoted?, if_neg ha, if_neg hb] at h
    cases h
    exact Nat.lt_succ_self _

theorem length_dropWhile_le (p : Char → Bool) (s : List Char) :
    (s.dropWhile p).length ≤ s.length :=
  (List.dropWhile_suffix p).sublist.length_le

theorem length_takeNumber_le (negative : Bool) (s : List Char) :
    (takeNumber negative s).2.length ≤ (s.dropWhile Char.isDigit).length := by
  unfold takeNumber spanDigits
  simp only
  split
  next t ht =>
    rw [ht]
    split
    · exact Nat.le_refl _
    · exact Nat.le_succ_of_le (length_dropWhile_le _ t)
  next => exact Nat.le_refl _

theorem length_lt_of_takeSign? {s rest : List Char} {l : Lexeme}
    (h : takeSign? s = some (l, rest)) : rest.length < s.length := by
  unfold takeSign? at h
  split at h
  · cases h
    exact Nat.lt_succ_of_lt (Nat.lt_succ_self _)
  · cases h
    exact Nat.lt_succ_of_lt (Nat.lt_succ_self _)
  · cases h
    exact Nat.lt_succ_of_lt (Nat.lt_succ_self _)
  · split at h
    · cases h
      exact Nat.lt_succ_self _
    · cases h
  · cases h

theorem length_lt_of_take? {d : Dialect} {s rest : List Char} {l : Lexeme}
    (h : take? d s = some (l, rest)) : rest.length < s.length := by
  cases s with
  | nil => cases h
  | cons c s =>
    rw [take?] at h
    split at h
    · obtain ⟨p, hp, he⟩ := Option.map_eq_some_iff.1 h
      cases he
      exact Nat.lt_succ_of_lt (length_lt_of_takeQuoted? hp)
    split at h
    · obtain ⟨p, hp, he⟩ := Option.map_eq_some_iff.1 h
      cases he
      exact Nat.lt_succ_of_lt (length_lt_of_takeQuoted? hp)
    split at h
    · cases h
      exact Nat.lt_succ_of_le (length_dropWhile_le _ s)
    split at h
    next hc =>
      have hle := length_takeNumber_le false (c :: s)
      rw [List.dropWhile_cons_of_pos hc] at hle
      rw [Option.some.inj h] at hle
      exact Nat.lt_succ_of_le (Nat.le_trans hle (length_dropWhile_le _ s))
    split at h
    · have hle := length_takeNumber_le (c = '-') s
      rw [Option.some.inj h] at hle
      exact Nat.lt_succ_of_le (Nat.le_trans hle (length_dropWhile_le _ s))
    · exact length_lt_of_takeSign? h

end Lexeme

open Lexeme in
/-- The lexemes of a text. -/
def lex (d : Dialect) : List Char → Option (List Lexeme)
  | [] => some []
  | c :: s =>
    if c.isWhitespace then lex d s
    else match _h : take? d (c :: s) with
      | none => none
      | some (l, rest) => (lex d rest).map (l :: ·)
termination_by s => s.length
decreasing_by
  · exact Nat.lt_succ_self _
  · exact length_lt_of_take? ‹_›

namespace Lexeme

/-! ### Reading back -/

/-- The text is over, or it goes on with a character that carries no lexeme on. -/
def Stops (s : List Char) : Prop := ∀ c ∈ s.head?, c ∈ [' ', ',', '(', ')']

variable {d : Dialect} {rest : List Char}

theorem Stops.eq_false_of_all (h : Stops rest) {p : Char → Bool}
    (hp : [' ', ',', '(', ')'].all (!p ·) = true) : ∀ c ∈ rest.head?, p c = false := by
  intro c hc
  simpa using List.all_eq_true.1 hp c (h c hc)

theorem Stops.head?_ne (h : Stops rest) {q : Char} (hq : q ∉ [' ', ',', '(', ')']) :
    rest.head? ≠ some q := by
  intro hr
  exact hq (h q hr)

theorem takeQuoted?_cons_of_ne {q c : Char} (hc : c ≠ q) (s : List Char) :
    takeQuoted? q (c :: s) = (takeQuoted? q s).map fun (body, rest) => (c :: body, rest) := by
  cases s with
  | nil => simp [takeQuoted?, hc]
  | cons b s => rw [takeQuoted?, if_pos hc]

/-- **A quoted text ends at its own last mark.** -/
theorem takeQuoted?_double {q : Char} (h : rest.head? ≠ some q) (s : List Char) :
    takeQuoted? q (double q s ++ q :: rest) = some (s, rest) := by
  induction s with
  | nil =>
    cases rest with
    | nil => simp [double, takeQuoted?]
    | cons c rest =>
      have hc : c ≠ q := by simpa using h
      simp [double, takeQuoted?, hc]
  | cons c s ih =>
    by_cases hc : c = q
    · simp [double, takeQuoted?, hc, ih]
    · simp [double, hc, takeQuoted?_cons_of_ne hc, ih]

theorem take?_name (h : rest.head? ≠ some d.nameMark) (s : String) :
    take? d (d.name s ++ rest) = some (name s, rest) := by
  have hq := takeQuoted?_double h s.toList
  rw [Dialect.name, quote, List.cons_append, List.append_assoc, take?, if_pos rfl]
  rw [List.singleton_append, hq]
  exact congrArg (fun s => some (name s, rest)) String.ofList_toList

theorem take?_string (h : rest.head? ≠ some Value.quoteMark) (s : List Char) :
    take? d (quote Value.quoteMark s ++ rest) = some (string (String.ofList s), rest) := by
  have hne : Value.quoteMark ≠ d.nameMark := by cases d <;> decide
  rw [quote, List.cons_append, List.append_assoc, take?, if_neg hne, if_pos rfl]
  rw [List.singleton_append, takeQuoted?_double h s, Option.map_some]

/-- The text is a word. -/
def isWord (s : String) : Bool := s.toList.head?.any Char.isUpper && s.toList.all inWord

/-- A run of characters of one kind ends where the text stops. -/
theorem span_append {p : Char → Bool} {s : List Char} (hs : ∀ c ∈ s, p c = true)
    (h : ∀ c ∈ rest.head?, p c = false) :
    (s ++ rest).takeWhile p = s ∧ (s ++ rest).dropWhile p = rest := by
  rw [List.takeWhile_append_of_pos hs, List.dropWhile_append_of_pos hs]
  cases rest with
  | nil => exact ⟨List.append_nil s, rfl⟩
  | cons c rest =>
    have hc : ¬ p c = true := by simp [h c rfl]
    rw [List.takeWhile_cons_of_neg hc, List.dropWhile_cons_of_neg hc]
    exact ⟨List.append_nil s, rfl⟩

theorem not_mark_of_isUpper {c : Char} (hc : c.isUpper = true) :
    c ≠ d.nameMark ∧ c ≠ Value.quoteMark := by
  constructor
  · rintro rfl
    revert hc
    cases d <;> decide
  · rintro rfl
    revert hc
    decide

theorem take?_word {w : String} (hw : isWord w = true) (h : Stops rest) :
    take? d (w.toList ++ rest) = some (word w, rest) := by
  have hrest : ∀ c ∈ rest.head?, inWord c = false := h.eq_false_of_all (by decide)
  rw [isWord, Bool.and_eq_true] at hw
  obtain ⟨hhead, hall⟩ := hw
  cases hs : w.toList with
  | nil =>
    rw [hs] at hhead
    cases hhead
  | cons c s =>
    rw [hs] at hhead hall
    have hc : c.isUpper = true := hhead
    have htail : ∀ c ∈ s, inWord c = true := by
      rw [List.all_cons, Bool.and_eq_true] at hall
      exact List.all_eq_true.1 hall.2
    obtain ⟨htake, hdrop⟩ := span_append htail hrest
    obtain ⟨hname, hquote⟩ := not_mark_of_isUpper (d := d) hc
    rw [List.cons_append, take?, if_neg hname, if_neg hquote, if_pos hc, htake, hdrop, ← hs,
      String.ofList_toList]

/-! ### Reading numbers back -/

theorem not_mark_of_isDigit {c : Char} (hc : c.isDigit = true) :
    c ≠ d.nameMark ∧ c ≠ Value.quoteMark ∧ c.isUpper = false := by
  refine ⟨?_, ?_, ?_⟩
  · rintro rfl
    revert hc
    cases d <;> decide
  · rintro rfl
    revert hc
    decide
  · rw [← Bool.not_eq_true]
    intro hu
    have hlow : 'A'.val ≤ c.val := (of_decide_eq_true hu).1
    have hhigh : c.val ≤ '9'.val := of_decide_eq_true (Bool.and_eq_true_iff.1 hc).2
    exact absurd (UInt32.le_trans hlow hhigh) (by decide)

/-- A number begins with its sign or with its first digit. -/
theorem take?_number {negative : Bool} {s : List Char} (hs : s.head?.any Char.isDigit = true) :
    take? d ((if negative then ['-'] else []) ++ s) = some (takeNumber negative s) := by
  cases negative with
  | true =>
    have hname : '-' ≠ d.nameMark := by cases d <;> decide
    show take? d ('-' :: s) = _
    rw [take?, if_neg hname, if_neg (by decide), if_neg (by decide), if_neg (by decide),
      if_pos ⟨.inl rfl, hs⟩]
    rfl
  | false =>
    cases s with
    | nil => cases hs
    | cons c s =>
      have hc : c.isDigit = true := hs
      obtain ⟨hname, hquote, hupper⟩ := not_mark_of_isDigit (d := d) hc
      show take? d (c :: s) = _
      rw [take?, if_neg hname, if_neg hquote, if_neg (by simp [hupper]), if_pos hc]

theorem takeNumber_digits (negative : Bool) {ds : List Char} (hd : ∀ c ∈ ds, c.isDigit = true)
    (h : Stops rest) : takeNumber negative (ds ++ rest) =
      (number negative ⟨Nat.ofDigitChars 10 ds 0, 0⟩, rest) := by
  obtain ⟨htake, hdrop⟩ := span_append hd (h.eq_false_of_all (by decide))
  have hpoint : rest.head? ≠ some '.' := h.head?_ne (by decide)
  unfold takeNumber spanDigits
  rw [htake, hdrop]
  simp only
  split
  next t _ => exact absurd rfl hpoint
  next => rfl

theorem takeNumber_point (negative : Bool) {whole places : List Char}
    (hw : ∀ c ∈ whole, c.isDigit = true) (hp : ∀ c ∈ places, c.isDigit = true)
    (hne : places ≠ []) (h : Stops rest) : takeNumber negative (whole ++ '.' :: places ++ rest) =
      (number negative ⟨Nat.ofDigitChars 10 (whole ++ places) 0, -places.length⟩, rest) := by
  have hdigit : ∀ c ∈ rest.head?, c.isDigit = false := h.eq_false_of_all (by decide)
  have hpoint : ∀ c ∈ ('.' :: (places ++ rest)).head?, c.isDigit = false := by
    intro c hc
    cases hc
    rfl
  obtain ⟨htake, hdrop⟩ := span_append hw hpoint
  obtain ⟨htake', hdrop'⟩ := span_append hp hdigit
  rw [List.append_assoc, List.cons_append]
  unfold takeNumber spanDigits
  rw [htake, hdrop]
  simp only [htake', hdrop', if_neg hne]

/-! ### Reading texts -/

theorem take?_eq_none_of_isWhitespace {c : Char} (hc : c.isWhitespace = true) (s : List Char) :
    take? d (c :: s) = none := by
  simp only [Char.isWhitespace, Bool.or_eq_true, decide_eq_true_eq] at hc
  rcases hc with ((rfl | rfl) | rfl) | rfl <;> cases d <;> rfl

@[simp] theorem lex_nil : lex d [] = some [] := by rw [lex]

theorem lex_space (s : List Char) : lex d (' ' :: s) = lex d s := by
  rw [lex, if_pos (by decide)]

theorem lex_of_take? {s : List Char} {l : Lexeme} (h : take? d s = some (l, rest)) :
    lex d s = (lex d rest).map (l :: ·) := by
  cases s with
  | nil => cases h
  | cons c s =>
    have hc : ¬ c.isWhitespace = true := by
      intro hc
      rw [take?_eq_none_of_isWhitespace hc] at h
      cases h
    rw [lex, if_neg hc]
    split
    next hn =>
      rw [h] at hn
      cases hn
    next l' rest' hs =>
      rw [h] at hs
      cases hs
      rfl

end Lexeme

end Keyset
