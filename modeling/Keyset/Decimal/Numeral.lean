import Keyset.Decimal.Digits

/-!
# Decimal numerals

A numeral stands for `coefficient · 10 ^ exponent`. It is read from digits with an optional point
and an optional exponent, and written positionally: all places filled with zeros, and never an
exponent.

* `Numeral.text_ofNat` : a natural number is written as its digits.
-/

namespace Keyset.Decimal

/-- The number `coefficient · 10 ^ exponent`. -/
structure Numeral where
  /-- The digits as one number. -/
  coefficient : Nat
  /-- The power of ten of the last digit. -/
  exponent : Int
deriving DecidableEq

namespace Numeral

/-- The exponent part of a numeral: nothing, or an `e` of either case and an integer. -/
def exponentOf? : List Char → Option Int
  | [] => some 0
  | c :: s => if c = 'e' ∨ c = 'E' then intOf? s else none

/-- Reads digits with an optional point before, among or after them, at least one digit in all, and
an optional exponent. -/
def read? (s : List Char) : Option Numeral :=
  let (whole, rest) := spanDigits s
  let (places, rest) := match rest with
    | '.' :: t => spanDigits t
    | _ => ([], rest)
  if whole = [] ∧ places = [] then none
  else (exponentOf? rest).map fun e =>
    ⟨Nat.ofDigitChars 10 (whole ++ places) 0, e - places.length⟩

/-- The numeral with all its places written out. -/
def text (x : Numeral) : List Char :=
  if 0 ≤ x.exponent then natText x.coefficient ++ List.replicate x.exponent.toNat '0'
  else
    let places := x.exponent.natAbs
    let ds := padded (places + 1) x.coefficient
    ds.take (ds.length - places) ++ '.' :: ds.drop (ds.length - places)

theorem text_ofNat (n : Nat) : text ⟨n, 0⟩ = natText n := by simp [text]

end Numeral

end Keyset.Decimal
