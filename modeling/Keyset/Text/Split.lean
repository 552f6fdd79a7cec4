/-!
# Splitting texts

The text after what is expected at the front, and the two texts around a character.

* `splitOnce?_eq_some_iff` : a text is split at the first of the given characters and nowhere else.
-/

namespace Keyset.Text

/-- The text after the given character at its front. -/
def after? (c : Char) : List Char → Option (List Char)
  | [] => none
  | d :: s => if d = c then some s else none

/-- The text after the given word at its front. -/
def afterWord? (word : List Char) (s : List Char) : Option (List Char) :=
  if word.isPrefixOf s then some (s.drop word.length) else none

/-- The texts before and after the first `c`. -/
def splitOnce? (c : Char) : List Char → Option (List Char × List Char)
  | [] => none
  | d :: s =>
    if d = c then some ([], s) else (splitOnce? c s).map fun (left, right) => (d :: left, right)

theorem splitOnce?_eq_some_iff {c : Char} {s left right : List Char} :
    splitOnce? c s = some (left, right) ↔ s = left ++ c :: right ∧ c ∉ left := by
  induction s generalizing left with
  | nil => simp [splitOnce?]
  | cons d s ih =>
    by_cases h : d = c
    · cases left with
      | nil => simp [splitOnce?, h]
      | cons a left => simp +contextual [splitOnce?, h]
    · cases left with
      | nil => simp [splitOnce?, h]
      | cons a left => simp [splitOnce?, h, ih]; grind

end Keyset.Text
