/-!
# Binary floating-point magnitudes

The finite magnitudes of a floating-point layout in increasing order are numbered by their *rank*,
from `0` for zero. The rank is also the bit pattern without the sign, and neighbouring magnitudes
have neighbouring ranks.

`BinaryLayout.magnitude` says what a rank stands for and `BinaryLayout.nearestRank` which rank is
nearest to a fraction.
-/

namespace Keyset.Decimal

/-- A floating-point layout. -/
structure BinaryLayout where
  /-- The bits of a significand after its leading one. -/
  fractionBits : Nat
  /-- The exponent of the smallest positive magnitude. -/
  minExponent : Int
  /-- The number of finite magnitudes. -/
  size : Nat

/-- Sixty-four bits: eleven of exponent and fifty-two of fraction. -/
def binary64 : BinaryLayout := ⟨52, -1074, 2047 <<< 52⟩

/-- Thirty-two bits: eight of exponent and twenty-three of fraction. -/
def binary32 : BinaryLayout := ⟨23, -149, 255 <<< 23⟩

/-- The integer nearest to `num / den`; of two equally near ones the even one. -/
def roundHalfEven (num den : Nat) : Nat :=
  let low := num / den
  let twice := 2 * (num % den)
  if twice < den ∨ (twice = den ∧ low % 2 = 0) then low else low + 1

/-- The fraction `num / den` over `2 ^ q`, again as a fraction. -/
def scaleDown (num den : Nat) (q : Int) : Nat × Nat :=
  if 0 ≤ q then (num, den <<< q.toNat) else (num <<< q.natAbs, den)

/-- The exponent `e` with `2 ^ e ≤ num / den < 2 ^ (e + 1)`, for a positive fraction. -/
def binaryExponent (num den : Nat) : Int :=
  let e : Int := num.log2 - den.log2
  let (n, d) := scaleDown num den e
  if d ≤ n then e else e - 1

namespace BinaryLayout

variable (L : BinaryLayout)

/-- The significand `m` and the exponent `q` of the magnitude `m · 2 ^ q` with the given rank. -/
def magnitude (rank : Nat) : Nat × Int :=
  let unit := 1 <<< L.fractionBits
  if rank < unit then (rank, L.minExponent)
  else (unit + rank % unit, L.minExponent + (rank / unit - 1 : Nat))

/-- The rank of the magnitude nearest to `num / den`, ties to the even significand. A rank of
`size` or more lies beyond the finite magnitudes. -/
def nearestRank (num den : Nat) : Nat :=
  if num = 0 then 0
  else
    let q := max (binaryExponent num den - L.fractionBits) L.minExponent
    let (n, d) := scaleDown num den q
    (q - L.minExponent).toNat <<< L.fractionBits + roundHalfEven n d

end BinaryLayout

end Keyset.Decimal
