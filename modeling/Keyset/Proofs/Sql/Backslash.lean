import Keyset.Proofs.Value.Literal
import Mathlib.Algebra.Group.Even
import Mathlib.Algebra.Group.Nat.Even

/-!
# Strings with backslashes

One of the dialects reads strings in its own way.  As in the others a doubled quote stands for one
quote, but a backslash takes the next character with it, a quote too.  `Escaped.take?` reads such a
string.  Texts are written with doubled quotes in every dialect and their backslashes are left as
they are, so the string that is read need not be the text, nor need it end where the literal does.

Both depend on the backslashes alone, which are read in pairs with what follows them:

* `Escaped.Closed` : no backslash takes a quote of the text with it, or the one at the end.
* `Escaped.takeBody?_double` : the string then ends with the literal and stands for
  `Escaped.decode` of the text.
* `Escaped.closed_of_takeBody?` : else it ends somewhere before, or after.
* `Piece.take?_literal_iff` : **which texts are read as they are, and which stay in their literal.**
-/

namespace Keyset

open Text Value

namespace Escaped

/-- What a backslash and the character after it stand for.  Most characters lose the backslash. -/
def meaning : Char → List Char
  | '0' => ['\x00']
  | 'b' => ['\x08']
  | 't' => ['\t']
  | 'n' => ['\n']
  | 'r' => ['\r']
  | 'Z' => ['\x1a']
  | '%' => ['\\', '%']
  | '_' => ['\\', '_']
  | c => [c]

/-- What was read, with a text in front of it, and what follows. -/
def prepend (front : List Char) (read : Option (List Char × List Char)) :
    Option (List Char × List Char) :=
  read.map fun (body, rest) => (front ++ body, rest)

/-- The string up to the quote that ends it, and what follows. -/
def takeBody? : List Char → Option (List Char × List Char)
  | [] => none
  | [c] => if c = quoteMark then some ([], []) else none
  | a :: b :: s =>
    if a = '\\' then prepend (meaning b) (takeBody? s)
    else if a ≠ quoteMark then prepend [a] (takeBody? (b :: s))
    else if b = quoteMark then prepend [quoteMark] (takeBody? s)
    else some ([], b :: s)

/-- The string at the front of a text, and what follows. -/
def take? : List Char → Option (List Char × List Char)
  | [] => none
  | c :: s => if c = quoteMark then takeBody? s else none

/-- A text with its backslashes taken at their meaning. -/
def decode : List Char → List Char
  | [] => []
  | [c] => [c]
  | a :: b :: s => if a = '\\' then meaning b ++ decode s else a :: decode (b :: s)

/-- The number of backslashes at the end of a text. -/
def trailing (s : List Char) : Nat := (s.reverse.takeWhile (· = '\\')).length

/-- No backslash takes a quote with it, nor does one stand alone at the end. -/
inductive Closed : List Char → Prop
  | nil : Closed []
  | char {c : Char} {s : List Char} (plain : c ≠ '\\') (closed : Closed s) : Closed (c :: s)
  | escape {c : Char} {s : List Char} (noQuote : c ≠ quoteMark) (closed : Closed s) :
    Closed ('\\' :: c :: s)

variable {s rest body : List Char} {c : Char}

/-! ### Reading one character -/

theorem prepend_eq_some_iff {front : List Char} {read : Option (List Char × List Char)} :
    prepend front read = some (body, rest) ↔
      ∃ body', read = some (body', rest) ∧ front ++ body' = body := by
  simp [prepend, Option.map_eq_some_iff]

theorem takeBody?_backslash (c : Char) (s : List Char) :
    takeBody? ('\\' :: c :: s) = prepend (meaning c) (takeBody? s) := by
  rw [takeBody?, if_pos rfl]

theorem takeBody?_quotes (s : List Char) :
    takeBody? (quoteMark :: quoteMark :: s) = prepend [quoteMark] (takeBody? s) := by
  rw [takeBody?, if_neg (by decide), if_neg (fun h => h rfl), if_pos rfl]

theorem takeBody?_cons (hc : c ≠ '\\') (hq : c ≠ quoteMark) (s : List Char) :
    takeBody? (c :: s) = prepend [c] (takeBody? s) := by
  cases s with
  | nil =>
    rw [takeBody?, takeBody?, if_neg hq]
    rfl
  | cons b s => rw [takeBody?, if_neg hc, if_pos hq]

theorem takeBody?_end (h : ∀ c ∈ rest.head?, c ≠ quoteMark) :
    takeBody? (quoteMark :: rest) = some ([], rest) := by
  cases rest with
  | nil => rfl
  | cons b s =>
    rw [takeBody?, if_neg (by decide), if_neg (fun hne => hne rfl), if_neg (h b rfl)]

theorem length_lt_of_takeBody? (h : takeBody? s = some (body, rest)) : rest.length < s.length := by
  fun_induction takeBody? s generalizing body with
  | case1 => cases h
  | case2 =>
    cases h
    exact Nat.one_pos
  | case3 => cases h
  | case4 b s ih =>
    obtain ⟨body', hs, -⟩ := prepend_eq_some_iff.1 h
    exact Nat.lt_succ_of_lt (Nat.lt_succ_of_lt (ih hs))
  | case5 a b s ha hq ih =>
    obtain ⟨body', hs, -⟩ := prepend_eq_some_iff.1 h
    exact Nat.lt_succ_of_lt (ih hs)
  | case6 a s ha hq ih =>
    obtain ⟨body', hs, -⟩ := prepend_eq_some_iff.1 h
    exact Nat.lt_succ_of_lt (Nat.lt_succ_of_lt (ih hs))
  | case7 a b s =>
    cases h
    exact Nat.lt_succ_self _

theorem decode_cons_of_ne (hc : c ≠ '\\') (s : List Char) : decode (c :: s) = c :: decode s := by
  cases s with
  | nil => rfl
  | cons b s => rw [decode, if_neg hc]

/-! ### Where a string ends -/

/-- **A text without a backslash that takes a quote with it** ends where its literal does. -/
theorem takeBody?_double (h : Closed s) (hrest : ∀ c ∈ rest.head?, c ≠ quoteMark) :
    takeBody? (double quoteMark s ++ quoteMark :: rest) = some (decode s, rest) := by
  induction h with
  | nil => exact takeBody?_end hrest
  | @char c s plain closed ih =>
    rw [decode_cons_of_ne plain, double]
    by_cases hq : c = quoteMark
    · rw [if_pos hq, List.cons_append, List.cons_append, takeBody?_quotes, ih, hq]
      rfl
    · rw [if_neg hq, List.cons_append, takeBody?_cons plain hq, ih]
      rfl
  | @escape c s noQuote closed ih =>
    have hmark : '\\' ≠ quoteMark := by decide
    rw [decode, if_pos rfl, double, if_neg hmark, double, if_neg noQuote, List.cons_append,
      List.cons_append, takeBody?_backslash, ih]
    rfl

/-- One quote of a pair alone does not stand for a quote: the string ends before the literal does,
or goes on after it. -/
theorem takeBody?_quote_ne :
    takeBody? (quoteMark :: (double quoteMark s ++ quoteMark :: rest)) ≠ some (body, rest) := by
  intro h
  induction s generalizing body with
  | nil =>
    rw [double, List.nil_append, takeBody?_quotes] at h
    obtain ⟨body', hs, -⟩ := prepend_eq_some_iff.1 h
    exact Nat.lt_irrefl _ (length_lt_of_takeBody? hs)
  | cons c s ih =>
    rw [double] at h
    by_cases hq : c = quoteMark
    · rw [if_pos hq, List.cons_append, List.cons_append, takeBody?_quotes] at h
      obtain ⟨body', hs, -⟩ := prepend_eq_some_iff.1 h
      exact ih hs
    · rw [if_neg hq, List.cons_append, takeBody?_end (by simpa using hq)] at h
      have hlength := congrArg (List.length ∘ Prod.snd) (Option.some.inj h)
      simp at hlength
      omega

/-- **A string that ends with its literal** has no backslash that takes a quote with it. -/
theorem closed_of_takeBody?
    (h : takeBody? (double quoteMark s ++ quoteMark :: rest) = some (body, rest)) : Closed s := by
  -- the text is read as the string is: a backslash together with the character after it
  fun_induction decode s generalizing body with
  | case1 => exact .nil
  | case2 c =>
    refine .char ?_ .nil
    rintro rfl
    have hmark : '\\' ≠ quoteMark := by decide
    rw [double, if_neg hmark, double, List.singleton_append, takeBody?_backslash] at h
    obtain ⟨body', hs, -⟩ := prepend_eq_some_iff.1 h
    exact Nat.lt_irrefl _ (length_lt_of_takeBody? hs)
  | case3 b s ih =>
    have hmark : '\\' ≠ quoteMark := by decide
    rw [double, if_neg hmark, double] at h
    by_cases hq : b = quoteMark
    · rw [if_pos hq, List.cons_append, List.cons_append, List.cons_append, takeBody?_backslash] at h
      obtain ⟨body', hs, -⟩ := prepend_eq_some_iff.1 h
      exact absurd hs takeBody?_quote_ne
    · rw [if_neg hq, List.cons_append, List.cons_append, takeBody?_backslash] at h
      obtain ⟨body', hs, -⟩ := prepend_eq_some_iff.1 h
      exact .escape hq (ih hs)
  | case4 a b s ha ih =>
    rw [double] at h
    by_cases hq : a = quoteMark
    · rw [if_pos hq, List.cons_append, List.cons_append, takeBody?_quotes] at h
      obtain ⟨body', hs, -⟩ := prepend_eq_some_iff.1 h
      exact .char ha (ih hs)
    · rw [if_neg hq, List.cons_append, takeBody?_cons ha hq] at h
      obtain ⟨body', hs, -⟩ := prepend_eq_some_iff.1 h
      exact .char ha (ih hs)

/-! ### What a string stands for -/

theorem length_meaning_le (c : Char) : (meaning c).length ≤ 2 := by
  unfold meaning
  split <;> simp

theorem length_decode_le (s : List Char) : (decode s).length ≤ s.length := by
  fun_induction decode s with
  | case1 => exact Nat.le_refl 0
  | case2 c => exact Nat.le_refl 1
  | case3 b s ih =>
    have hb := length_meaning_le b
    rw [List.length_append, List.length_cons, List.length_cons]
    omega
  | case4 a b s ha ih => exact Nat.succ_le_succ ih

theorem decode_backslash_eq_iff :
    decode ('\\' :: c :: s) = '\\' :: c :: s ↔ (c = '%' ∨ c = '_') ∧ decode s = s := by
  have hlength := length_decode_le s
  rw [decode, if_pos rfl]
  unfold meaning
  split
  case h_9 hzero hb ht hn hr hZ hpercent hunderscore =>
    -- any other character loses the backslash, and if it is one itself it stands for two
    refine iff_of_false (fun heq => ?_) (fun hkept => hkept.1.elim hpercent hunderscore)
    rw [List.singleton_append] at heq
    have htail := congrArg List.length (List.cons.inj heq).2
    rw [List.length_cons] at htail
    omega
  all_goals simp

/-- **Which texts stay in their literal and are read as they are.** -/
theorem closed_and_decode_eq_iff : Closed s ∧ decode s = s ↔
    ∀ before after, s = before ++ '\\' :: after → ∃ c ∈ after.head?, c = '%' ∨ c = '_' := by
  constructor
  · rintro ⟨hclosed, hdecode⟩ before after hs
    induction hclosed generalizing before with
    | nil => simp at hs
    | @char c s plain closed ih =>
      rw [decode_cons_of_ne plain] at hdecode
      cases before with
      | nil => exact absurd (List.cons.inj hs).1 plain
      | cons b before => exact ih (List.cons.inj hdecode).2 before (List.cons.inj hs).2
    | @escape c s noQuote closed ih =>
      obtain ⟨hc, hdecode⟩ := decode_backslash_eq_iff.1 hdecode
      match before with
      | [] => exact ⟨c, by rw [← (List.cons.inj hs).2]; rfl, hc⟩
      | [b] =>
        obtain ⟨rfl, -⟩ := List.cons.inj (List.cons.inj hs).2
        exact absurd hc (by decide)
      | b :: b' :: before => exact ih hdecode before (List.cons.inj (List.cons.inj hs).2).2
  · intro h
    induction s using decode.induct with
    | case1 => exact ⟨.nil, rfl⟩
    | case2 c =>
      refine ⟨.char ?_ .nil, rfl⟩
      rintro rfl
      obtain ⟨c, hc, -⟩ := h [] [] rfl
      cases hc
    | case3 b s ih =>
      obtain ⟨b', hb', hkept⟩ := h [] (b :: s) rfl
      obtain rfl := Option.some.inj hb'
      obtain ⟨hclosed, hdecode⟩ := ih fun before after hs =>
        h ('\\' :: b :: before) after (by rw [hs]; rfl)
      refine ⟨.escape ?_ hclosed, decode_backslash_eq_iff.2 ⟨hkept, hdecode⟩⟩
      rcases hkept with rfl | rfl <;> decide
    | case4 a b s ha ih =>
      obtain ⟨hclosed, hdecode⟩ := ih fun before after hs => h (a :: before) after (by rw [hs]; rfl)
      exact ⟨.char ha hclosed, by rw [decode_cons_of_ne ha, hdecode]⟩

/-! ### Backslashes in a row -/

theorem trailing_le (s : List Char) : trailing s ≤ s.length := by
  rw [← List.length_reverse]
  exact (List.takeWhile_sublist _).length_le

theorem trailing_cons (c : Char) (s : List Char) : trailing (c :: s) =
    if trailing s = s.length ∧ c = '\\' then trailing s + 1 else trailing s := by
  rw [trailing, List.reverse_cons, List.takeWhile_append, List.length_reverse, ← trailing]
  by_cases hall : trailing s = s.length
  · by_cases hc : c = '\\' <;> simp [hall, hc]
  · rw [if_neg hall, if_neg fun h => hall h.1]
    rfl

theorem even_trailing_escape (c : Char) (s : List Char) :
    Even (trailing ('\\' :: c :: s)) ↔ Even (trailing s) := by
  have hle := trailing_le s
  rw [trailing_cons, trailing_cons, List.length_cons]
  by_cases hc : trailing s = s.length ∧ c = '\\'
  · rw [if_pos hc, if_pos ⟨by rw [hc.1], rfl⟩, Nat.even_add_one, Nat.even_add_one, not_not]
  · rw [if_neg hc, if_neg (by omega)]

/-- **Every backslash has its partner iff they are even in number wherever a quote or the end
follows.** -/
theorem closed_iff : Closed s ↔ ∀ before after, s = before ++ after →
    (∀ c ∈ after.head?, c = quoteMark) → Even (trailing before) := by
  have hempty : Even (trailing []) := Even.zero
  constructor
  · intro h before after hs hafter
    induction h generalizing before with
    | nil =>
      obtain ⟨rfl, -⟩ := List.append_eq_nil_iff.1 hs.symm
      exact hempty
    | @char c s plain closed ih =>
      cases before with
      | nil => exact hempty
      | cons b before =>
        obtain ⟨rfl, htail⟩ := List.cons.inj hs
        rw [trailing_cons, if_neg fun h => plain h.2]
        exact ih before htail
    | @escape c s noQuote closed ih =>
      match before with
      | [] => exact hempty
      | [b] =>
        obtain ⟨-, rfl⟩ := List.cons.inj hs
        exact absurd (hafter c rfl) noQuote
      | b :: b' :: before =>
        obtain ⟨rfl, htail⟩ := List.cons.inj hs
        exact (even_trailing_escape b' before).2 (ih before (List.cons.inj htail).2)
  · intro h
    have hone : ¬ Even (trailing ['\\']) := by decide
    induction s using decode.induct with
    | case1 => exact .nil
    | case2 c =>
      refine .char ?_ .nil
      rintro rfl
      exact hone (h _ [] rfl nofun)
    | case3 b s ih =>
      refine .escape ?_ (ih fun before after hs hafter => ?_)
      · rintro rfl
        exact hone (h ['\\'] _ rfl fun c hc => (Option.some.inj hc).symm)
      · have heven := h ('\\' :: b :: before) after (by rw [hs]; rfl) hafter
        exact (even_trailing_escape b before).1 heven
    | case4 a b s ha ih =>
      refine .char ha (ih fun before after hs hafter => ?_)
      have heven := h (a :: before) after (by rw [hs]; rfl) hafter
      rwa [trailing_cons, if_neg fun h => ha h.2] at heven

end Escaped

/-- **Which texts stay in their literal.**  Where the literal of a text is read with backslashes and
no quote follows it, it is read as the text iff every backslash in the text stands before one of the
two signs of patterns, and what is read ends with the literal iff the backslashes in front of each
quote, and those at the end, are even in number. -/
theorem Piece.take?_literal_iff (s : String) (rest : List Char)
    (separate : ∀ c ∈ rest.head?, c ≠ quoteMark) :
    (Escaped.take? (spelling .mysql (.literal (.text s)) ++ rest) = some (s.toList, rest) ↔
      ∀ before after, s.toList = before ++ '\\' :: after →
        ∃ c ∈ after.head?, c = '%' ∨ c = '_') ∧
    ((∃ body, Escaped.take? (spelling .mysql (.literal (.text s)) ++ rest) = some (body, rest)) ↔
      ∀ before after, s.toList = before ++ after → (∀ c ∈ after.head?, c = quoteMark) →
        Even (Escaped.trailing before)) := by
  have htake : Escaped.take? (spelling .mysql (.literal (.text s)) ++ rest) =
      Escaped.takeBody? (double quoteMark s.toList ++ quoteMark :: rest) := by
    have hspelling : spelling .mysql (.literal (.text s)) = quote quoteMark s.toList := rfl
    rw [hspelling, quote, List.cons_append, List.append_assoc, Escaped.take?, if_pos rfl]
    rfl
  rw [htake, ← Escaped.closed_and_decode_eq_iff, ← Escaped.closed_iff]
  refine ⟨⟨fun h => ?_, ?_⟩, ?_, ?_⟩
  · have hclosed := Escaped.closed_of_takeBody? h
    rw [Escaped.takeBody?_double hclosed separate] at h
    exact ⟨hclosed, (Prod.mk.inj (Option.some.inj h)).1⟩
  · rintro ⟨hclosed, hdecode⟩
    rw [Escaped.takeBody?_double hclosed separate, hdecode]
  · rintro ⟨body, h⟩
    exact Escaped.closed_of_takeBody? h
  · intro hclosed
    exact ⟨_, Escaped.takeBody?_double hclosed separate⟩

/-- A pattern with a backslash is read as it is. -/
theorem Piece.take?_literal_percent :
    Escaped.take? (spelling .mysql (.literal (.text "100\\%")) ++ [')']) =
      some ("100\\%".toList, [')']) :=
  (take?_literal_iff "100\\%" [')'] (by rintro _ ⟨⟩; decide)).1.2 <|
    Escaped.closed_and_decode_eq_iff.1
      ⟨.char (by decide) (.char (by decide) (.char (by decide) (.escape (by decide) .nil))), rfl⟩

/-- A backslash in front of a quote ends the string early: what the text goes on with is read as a
part of the statement. -/
theorem Piece.take?_literal_escapes :
    Escaped.take? (spelling .mysql (.literal (.text "\\\x27 OR 1=1 -- "))) =
      some ([quoteMark], " OR 1=1 -- \x27".toList) := by
  decide

end Keyset
