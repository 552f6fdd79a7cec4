/-!
# Quoting by doubling

A quoted text stands between two quote characters, and a quote character inside it is written
twice. `quote` writes the form and `between?` and `undouble` take it apart.

* `undouble_double` : what was doubled is read back.
* `between?_quote` : the body of a quoted text is the doubled text.
-/

namespace Keyset.Text

/-- The text with every `q` in it written twice. -/
def double (q : Char) : List Char → List Char
  | [] => []
  | c :: s => if c = q then q :: q :: double q s else c :: double q s

/-- The text with every pair `q q`, taken from the left, made one `q`. A `q` without a partner
stays. -/
def undouble (q : Char) : List Char → List Char
  | [] => []
  | [c] => [c]
  | a :: b :: s => if a = q ∧ b = q then q :: undouble q s else a :: undouble q (b :: s)

/-- The text between two `q`, with every `q` inside written twice. -/
def quote (q : Char) (s : List Char) : List Char := q :: (double q s ++ [q])

/-- What stands between a first and a last `q`. One `q` alone is not both. -/
def between? (q : Char) : List Char → Option (List Char)
  | [] => none
  | c :: s => if c = q ∧ s.getLast? = some q then some s.dropLast else none

theorem undouble_cons_of_ne {q c : Char} (h : c ≠ q) (s : List Char) :
    undouble q (c :: s) = c :: undouble q s := by
  cases s <;> simp [undouble, h]

theorem undouble_double (q : Char) (s : List Char) : undouble q (double q s) = s := by
  induction s with
  | nil => rfl
  | cons c s ih =>
    by_cases h : c = q
    · simp [double, undouble, h, ih]
    · simp [double, h, undouble_cons_of_ne, ih]

theorem between?_quote (q : Char) (s : List Char) : between? q (quote q s) = some (double q s) := by
  simp [between?, quote]

end Keyset.Text
