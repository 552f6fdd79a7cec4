import Keyset.Decimal.Binary
import Keyset.Decimal.Numeral

/-!
# The shortest decimal of a binary magnitude

The decimals that read back as a magnitude fill the interval up to the midpoints to its two
neighbours; the midpoints belong to it iff the significand is even. The shortest of them lies on
the coarsest decimal grid that has a point in the interval. Of two such points the nearer one is
taken, and of two equally near ones the larger.
-/

namespace Keyset.Decimal

/-- The interval of the numbers that are rounded to one magnitude, in steps of a quarter of the
magnitude's last binary place. -/
structure RoundingInterval where
  /-- The lower midpoint. -/
  low : Nat
  /-- The magnitude itself. -/
  middle : Nat
  /-- The upper midpoint. -/
  high : Nat
  /-- The binary exponent of one step. -/
  exponent : Int
  /-- The midpoints belong to the interval. -/
  closed : Bool

namespace RoundingInterval

/-- The interval of the magnitude with a rank. Below a power of two the steps between magnitudes
are half as long, save next to zero. -/
def ofRank (L : BinaryLayout) (rank : Nat) : RoundingInterval :=
  let (m, q) := L.magnitude rank
  let below := if m = 1 <<< L.fractionBits ∧ L.minExponent < q then 1 else 2
  ⟨4 * m - below, 4 * m, 4 * m + 2, q - 2, m % 2 = 0⟩

variable (I : RoundingInterval)

/-- One step in units of `10 ^ t`, as a fraction. -/
def stepOver (t : Int) : Nat × Nat :=
  (Nat.pow 10 (-t).toNat <<< I.exponent.toNat, Nat.pow 10 t.toNat <<< (-I.exponent).toNat)

/-- The point `g · 10 ^ t` lies in the interval. -/
def holds (t : Int) (g : Nat) : Bool :=
  let (num, den) := I.stepOver t
  if I.closed then I.low * num ≤ g * den && g * den ≤ I.high * num
  else I.low * num < g * den && g * den < I.high * num

/-- The point of the grid `10 ^ t` that lies in the interval and is nearest to the magnitude. -/
def pick? (t : Int) : Option Nat :=
  let (num, den) := I.stepOver t
  let g := I.middle * num / den
  if I.holds t g then
    if I.holds t (g + 1) ∧ den ≤ 2 * (I.middle * num % den) then some (g + 1) else some g
  else if I.holds t (g + 1) then some (g + 1) else none

/-- The first hit on the grids `10 ^ t`, `10 ^ (t - 1)`, … -/
def search : Nat → Int → Option Numeral
  | 0, _ => none
  | k + 1, t => match I.pick? t with
    | some g => some ⟨g, t⟩
    | none => search k (t - 1)

/-- No grid coarser than `10 ^ topPlace` has a point in the interval. -/
def topPlace : Nat := (natText (I.middle <<< I.exponent.toNat)).length

/-- The exact value, on the grid of its last binary place. -/
def exact : Numeral :=
  if 0 ≤ I.exponent then ⟨I.middle <<< I.exponent.toNat, 0⟩
  else ⟨I.middle * Nat.pow 5 I.exponent.natAbs, I.exponent⟩

/-- The shortest decimal in the interval. The search ends at the latest on the grid of the exact
value. -/
def shortest : Numeral :=
  (I.search (I.topPlace + I.exponent.natAbs + 1) I.topPlace).getD I.exact

end RoundingInterval

/-- The shortest decimal that reads back as the magnitude with a rank; zero has the digit `0`. -/
def shortest (L : BinaryLayout) (rank : Nat) : Numeral :=
  if rank = 0 then ⟨0, 0⟩ else (RoundingInterval.ofRank L rank).shortest

end Keyset.Decimal
