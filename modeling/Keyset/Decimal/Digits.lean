/-!
# Decimal digits

Natural numbers and integers as ASCII digits, written and read.

* `natOf?_natText` : a written natural number is read back.
* `natOf?_eq_none_iff` : a text is refused iff it is empty or holds something else than digits.
-/

namespace Keyset.Decimal

/-- The digits of `n`, without leading zeros. -/
def natText (n : Nat) : List Char := Nat.toDigits 10 n

/-- The digits of `n`, filled up with zeros on the left to at least `width` characters. -/
def padded (width n : Nat) : List Char :=
  List.replicate (width - (natText n).length) '0' ++ natText n

/-- The digits of an integer after a minus sign if it is negative. -/
def intText (n : Int) : List Char :=
  if n < 0 then '-' :: natText n.natAbs else natText n.natAbs

/-- The number that a text of digits, and of nothing else, spells. -/
def natOf? (s : List Char) : Option Nat :=
  if s ≠ [] ∧ s.all Char.isDigit then some (Nat.ofDigitChars 10 s 0) else none

/-- Whether the text opens with a minus sign, and the text after its sign if it has one. -/
def splitSign : List Char → Bool × List Char
  | '-' :: s => (true, s)
  | '+' :: s => (false, s)
  | s => (false, s)

/-- The integer that digits after an optional sign spell. -/
def intOf? (s : List Char) : Option Int :=
  (natOf? (splitSign s).2).map fun (n : Nat) => if (splitSign s).1 then -(n : Int) else n

/-- The longest run of digits at the front, and the text after it. -/
def spanDigits (s : List Char) : List Char × List Char :=
  (s.takeWhile Char.isDigit, s.dropWhile Char.isDigit)

/-- The number spelled by the digits at the front, of which there is at least one and of which no
more than `most` are taken, and the text after them. -/
def takeNat? (most : Nat) (s : List Char) : Option (Nat × List Char) :=
  let ds := (s.take most).takeWhile Char.isDigit
  if ds = [] then none else some (Nat.ofDigitChars 10 ds 0, s.drop ds.length)

theorem natText_all_isDigit (n : Nat) : (natText n).all Char.isDigit = true :=
  List.all_eq_true.2 fun _ h => Nat.isDigit_of_mem_toDigits (by decide) (by decide) h

theorem natText_ne_nil (n : Nat) : natText n ≠ [] := Nat.toDigits_ne_nil

theorem natOf?_natText (n : Nat) : natOf? (natText n) = some n := by
  rw [natOf?, if_pos ⟨natText_ne_nil n, natText_all_isDigit n⟩]
  exact congrArg some (Nat.ofDigitChars_toDigits (by decide) (by decide))

theorem natOf?_eq_none_iff {s : List Char} :
    natOf? s = none ↔ s = [] ∨ ∃ c ∈ s, c.isDigit = false := by
  by_cases h : s = [] <;> simp [natOf?, h]

end Keyset.Decimal
