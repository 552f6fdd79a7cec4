import Keyset.Decimal.Shortest

/-!
# Double-precision numbers

A `Double` is not a number, an infinity, or a sign with the rank of a finite magnitude. It is read
from a decimal numeral, correctly rounded, and written as the shortest decimal that reads back.

* `Double.numEq_self_iff` : a double equals itself iff it is a number.
-/

namespace Keyset

open Decimal

/-- A double-precision floating-point number. -/
inductive Double
  /-- The result that is no number. -/
  | nan
  /-- An infinity. -/
  | infinite (negative : Bool)
  /-- A sign and the rank of a finite magnitude. Both zeros have rank `0`. -/
  | finite (negative : Bool) (rank : Fin binary64.size)
deriving DecidableEq

namespace Double

/-- The double is neither an infinity nor `nan`. -/
def isFinite : Double → Bool
  | finite _ _ => true
  | _ => false

/-- The double is one of the two zeros. -/
def isZero : Double → Bool
  | finite _ rank => rank.val = 0
  | _ => false

/-- Numeric equality: the two zeros are equal and `nan` equals nothing. -/
def numEq : Double → Double → Bool
  | nan, _ => false
  | _, nan => false
  | x, y => (x.isZero && y.isZero) || x = y

/-! ### From fractions and numerals -/

/-- The double with a sign and a rank; a rank beyond the finite ones is an infinity. -/
def ofRank (negative : Bool) (rank : Nat) : Double :=
  if h : rank < binary64.size then finite negative ⟨rank, h⟩ else infinite negative

/-- The double nearest to an integer. -/
def ofInt (n : Int) : Double := ofRank (n < 0) (binary64.nearestRank n.natAbs 1)

/-- The rank in the layout `L` that is nearest to a numeral. Numerals far beyond every finite
magnitude or far below every positive one are told by their size alone. -/
def rankOf (L : BinaryLayout) (x : Numeral) : Nat :=
  if x.coefficient = 0 then 0
  else if 400 < x.exponent then L.size
  else if x.exponent + x.coefficient.log2 < -400 then 0
  else if 0 ≤ x.exponent then L.nearestRank (x.coefficient * Nat.pow 10 x.exponent.toNat) 1
  else L.nearestRank x.coefficient (Nat.pow 10 x.exponent.natAbs)

/-- The double nearest to a numeral. -/
def ofNumeral (negative : Bool) (x : Numeral) : Double := ofRank negative (rankOf binary64 x)

/-- The single-precision number nearest to a numeral, as a double. -/
def ofNumeralSingle (negative : Bool) (x : Numeral) : Double :=
  let rank := rankOf binary32 x
  if binary32.size ≤ rank then infinite negative
  else
    let (m, q) := binary32.magnitude rank
    let (n, d) := scaleDown m 1 (-q)
    ofRank negative (binary64.nearestRank n d)

/-! ### Text -/

/-- Reads an optional sign and then, in either case, `inf`, `infinity` or `nan`, or a decimal
numeral, which `round` turns into a double. -/
def readWith (round : Bool → Numeral → Double) (s : List Char) : Option Double :=
  let (negative, body) := splitSign s
  let name := body.map Char.toLower
  if name = "inf".toList ∨ name = "infinity".toList then some (infinite negative)
  else if name = "nan".toList then some nan
  else (Numeral.read? body).map (round negative)

/-- Reads a double. -/
def read? (s : List Char) : Option Double := readWith ofNumeral s

/-- Reads a single-precision number. -/
def readSingle? (s : List Char) : Option Double := readWith ofNumeralSingle s

/-- The text of a double: the shortest decimal with all places written out, and no point if no
place follows it. -/
def text : Double → List Char
  | nan => "NaN".toList
  | infinite negative => (if negative then ['-'] else []) ++ "inf".toList
  | finite negative rank => (if negative then ['-'] else []) ++ (shortest binary64 rank).text

theorem numEq_self_iff {x : Double} : x.numEq x = true ↔ x ≠ nan := by
  cases x <;> simp [numEq]

end Double

end Keyset
