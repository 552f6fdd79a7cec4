import Keyset.Proofs.Decimal.Nearest
import Keyset.Proofs.Json.Reads
import Keyset.Proofs.Value.Literal

/-!
# The literals of JSON integers

An integer that fits into sixty-four signed bits is kept.  One that fits only without a sign becomes
the nearest double, and its literal is that of the shortest decimal, which is a whole number:
`Json.WrittenAs`.

* `Double.nearestRank_of_wide` : the doubles among these integers lie at least 2048 apart.
* `Double.contains_of_ofInt_eq` : the whole numbers with one nearest double lie in its interval.
* `Json.exists_writtenAs` : **the literal of an integer is the numeral of an integer**, the same one
  or the nearest of those with the same double and as many zeros at their end as possible.
-/

namespace Keyset

open Decimal

namespace Decimal

theorem binaryExponent_eq {n : ℕ} {e : ℕ} (hlow : 2 ^ e ≤ n) (hhigh : n < 2 ^ (e + 1)) :
    binaryExponent n 1 = e := by
  have hn : n ≠ 0 := (Nat.lt_of_lt_of_le (Nat.two_pow_pos e) hlow).ne'
  obtain ⟨hle, hlt⟩ := binaryExponent_spec hn one_ne_zero
  rw [Nat.cast_one, div_one] at hle hlt
  have hbelow : (2 : ℚ) ^ binaryExponent n 1 < 2 ^ ((e : ℤ) + 1) :=
    hle.trans_lt (by exact_mod_cast hhigh)
  have habove : (2 : ℚ) ^ (e : ℤ) < 2 ^ (binaryExponent n 1 + 1) := by
    refine lt_of_le_of_lt ?_ hlt
    exact_mod_cast hlow
  have hbelow := (zpow_lt_zpow_iff_right₀ (by norm_num)).1 hbelow
  have habove := (zpow_lt_zpow_iff_right₀ (by norm_num)).1 habove
  omega

end Decimal

namespace Double

variable {n : ℕ}

theorem nearestRank_of_wide (hlow : 2 ^ 63 ≤ n) (hhigh : n < 2 ^ 64) :
    1086 * 2 ^ 52 ≤ binary64.nearestRank n 1 ∧ binary64.nearestRank n 1 ≤ 1087 * 2 ^ 52 := by
  have hscale :
      max (binaryExponent n 1 - (binary64.fractionBits : ℤ)) binary64.minExponent = 11 := by
    rw [binaryExponent_eq hlow hhigh]
    rfl
  have hround : 2 ^ 52 ≤ roundHalfEven n 2048 ∧ roundHalfEven n 2048 ≤ 2 ^ 53 := by
    unfold roundHalfEven
    dsimp only
    split_ifs <;> omega
  have hrank : binary64.nearestRank n 1 = 1085 * 2 ^ 52 + roundHalfEven n 2048 := by
    unfold BinaryLayout.nearestRank
    rw [if_neg (by omega)]
    simp only [hscale]
    rfl
  omega

/-- **The doubles of these integers are so far from each other** that each of them has a decimal
with three zeros at its end. -/
theorem three_le_exponent_shortest (hlow : 2 ^ 63 ≤ n) (hhigh : n < 2 ^ 64) :
    3 ≤ (shortest binary64 (binary64.nearestRank n 1)).exponent := by
  obtain ⟨hle, -⟩ := nearestRank_of_wide hlow hhigh
  generalize binary64.nearestRank n 1 = rank at hle
  have hscale : 11 ≤ (binary64.magnitude rank).2 := by
    obtain ⟨hsum, -, hsmall, -⟩ := BinaryLayout.magnitude_spec binary64 rank
    have hbits : binary64.fractionBits = 52 := rfl
    have hmin : binary64.minExponent = -1074 := rfl
    rw [hbits, hmin] at hsum
    rw [hbits] at hsmall
    omega
  refine le_exponent_shortest_of_lt (by omega) (by norm_num) ?_
  calc (10 : ℚ) ^ (3 : ℤ) < 3 * 2 ^ (9 : ℤ) := by norm_num
    _ ≤ 3 * 2 ^ ((binary64.magnitude rank).2 - 2) := by
      gcongr
      · norm_num
      · omega

theorem ofInt_eq_finite_iff {j : ℤ} {rank : Fin binary64.size} :
    ofInt j = .finite false rank ↔ 0 ≤ j ∧ binary64.nearestRank j.natAbs 1 = rank := by
  unfold ofInt ofRank
  split_ifs with hlt
  · simp [Fin.ext_iff]
  · refine iff_of_false nofun fun h => hlt ?_
    rw [h.2]
    exact rank.isLt

/-- The number that a finite double is, and zero for the others. -/
def toRat : Double → ℚ
  | finite negative rank =>
    let (m, q) := binary64.magnitude rank
    if negative then -(m * 2 ^ q) else m * 2 ^ q
  | _ => 0

theorem toRat_finite (rank : Fin binary64.size) : (finite false rank).toRat =
    (binary64.magnitude rank).1 * 2 ^ (binary64.magnitude rank).2 := rfl

section Shortest

/-! The shortest decimal of a positive double, where it is a whole number. -/

variable {rank : Fin binary64.size}

theorem coefficient_written (h : 0 ≤ (shortest binary64 rank).exponent) :
    (shortest binary64 rank).written.coefficient =
      (shortest binary64 rank).coefficient * 10 ^ (shortest binary64 rank).exponent.toNat := by
  rw [Numeral.written, if_pos h, Nat.pow_eq]

theorem value_written_coefficient (h : 0 ≤ (shortest binary64 rank).exponent) :
    ((shortest binary64 rank).written.coefficient : ℚ) = (shortest binary64 rank).value := by
  rw [← Numeral.value_written, Numeral.value, Numeral.written, if_pos h]
  simp

theorem ofInt_shortest (hrank : rank.val ≠ 0) (h : 0 ≤ (shortest binary64 rank).exponent) :
    ofInt (shortest binary64 rank).written.coefficient = .finite false rank := by
  have hne : (shortest binary64 rank).written.coefficient ≠ 0 := by
    rw [coefficient_written h]
    exact Nat.mul_ne_zero (coefficient_shortest_ne_zero hrank) (by positivity)
  have hcontains := contains_shortest (L := binary64) hrank
  rw [← value_written_coefficient h, ← div_one ((shortest binary64 rank).written.coefficient : ℚ),
    ← Nat.cast_one] at hcontains
  exact ofInt_eq_finite_iff.2
    ⟨by omega, BinaryLayout.nearestRank_of_contains hne one_ne_zero hrank hcontains⟩

section Others

/-! Other whole numbers of this double. -/

variable {j : ℤ} {k : ℕ} (hrank : rank.val ≠ 0) (hj : ofInt j = .finite false rank)
  (hk : 10 ^ k ∣ j)

include hrank hj hk

theorem contains_of_ofInt_eq : ∃ g : ℕ, (j : ℚ) = g * 10 ^ (k : ℤ) ∧
    (RoundingInterval.ofRank binary64 rank).Contains (g * 10 ^ (k : ℤ)) := by
  obtain ⟨hpos, hnearest⟩ := ofInt_eq_finite_iff.1 hj
  obtain ⟨j, rfl⟩ := Int.eq_ofNat_of_zero_le hpos
  rw [Int.natAbs_natCast] at hnearest
  have hne : j ≠ 0 := by
    rintro rfl
    exact hrank hnearest.symm
  obtain ⟨g, rfl⟩ : 10 ^ k ∣ j := by exact_mod_cast hk
  have hgrid : ((10 ^ k * g : ℕ) : ℚ) = g * 10 ^ (k : ℤ) := by
    push_cast
    rw [mul_comm, zpow_natCast]
  have hcontains := BinaryLayout.contains_nearestRank (L := binary64) (by decide) hne one_ne_zero
    (hnearest.trans_ne hrank)
  rw [hnearest, Nat.cast_one, div_one, hgrid] at hcontains
  exact ⟨g, by rw [Int.cast_natCast, hgrid], hcontains⟩

theorem pow_dvd_shortest : 10 ^ k ∣ (shortest binary64 rank).written.coefficient := by
  obtain ⟨g, -, hcontains⟩ := contains_of_ofInt_eq hrank hj hk
  have hle := le_exponent_shortest hrank (by omega) hcontains
  rw [coefficient_written (by omega)]
  exact (Nat.pow_dvd_pow 10 (by omega)).mul_left _

theorem abs_sub_toRat_le (h : 0 ≤ (shortest binary64 rank).exponent)
    (hend : ¬ 10 ^ (k + 1) ∣ (shortest binary64 rank).written.coefficient) :
    |((shortest binary64 rank).written.coefficient : ℚ) - (finite false rank).toRat| ≤
      |(j : ℚ) - (finite false rank).toRat| := by
  obtain ⟨g, hj, hcontains⟩ := contains_of_ofInt_eq hrank hj hk
  have hle : (shortest binary64 rank).exponent ≤ k := by
    by_contra hlt
    refine hend ?_
    rw [coefficient_written h]
    exact (Nat.pow_dvd_pow 10 (by omega)).mul_left _
  have hnear := abs_sub_shortest_le hrank (by omega) hle hcontains
  rwa [hj, value_written_coefficient h, toRat_finite]

end Others

end Shortest

end Double

namespace Json

/-- The integer `m` is written for the integer `n`. -/
structure WrittenAs (n m : ℤ) : Prop where
  /-- An integer that fits into sixty-four signed bits is written as it is. -/
  exact : n < 2 ^ 63 → m = n
  /-- Both have the same nearest double. -/
  double : Double.ofInt m = Double.ofInt n
  /-- Otherwise there are three zeros at the end, or more. -/
  thousands : 2 ^ 63 ≤ n → 1000 ∣ m
  /-- No integer with this nearest double ends in more zeros. -/
  zeros : 2 ^ 63 ≤ n → ∀ (k : ℕ) (j : ℤ), Double.ofInt j = Double.ofInt n → 10 ^ k ∣ j → 10 ^ k ∣ m
  /-- And of those that end in as many zeros, none is nearer to the double. -/
  nearest : 2 ^ 63 ≤ n → ∀ (k : ℕ) (j : ℤ), Double.ofInt j = Double.ofInt n → 10 ^ k ∣ j →
    ¬ 10 ^ (k + 1) ∣ m →
    |(m : ℚ) - (Double.ofInt n).toRat| ≤ |(j : ℚ) - (Double.ofInt n).toRat|

theorem spelling_of_fits {n : ℤ} (low : -2 ^ 63 ≤ n) (high : n < 2 ^ 63) :
    (valueOfInteger n).spelling = intText n := by
  have hn : (Int64.ofInt n).toInt = n := Int64.toInt_ofInt_of_le low high
  have hvalue := valueOfInteger_toInt (Int64.ofInt n)
  rw [hn] at hvalue
  rw [hvalue, Value.spelling, hn]

/-- **What is written for an integer that needs the sixty-fourth bit.** -/
theorem exists_writtenAs_of_wide {n : ℕ} (low : 2 ^ 63 ≤ n) (high : n < 2 ^ 64) :
    ∃ m : ℕ, WrittenAs n m ∧ (valueOfInteger n).spelling = natText m := by
  obtain ⟨hle, hsize⟩ := Double.nearestRank_of_wide low high
  have hexponent := Double.three_le_exponent_shortest low high
  have hvalue : valueOfInteger n = .real (.ofInt n) := by
    refine valueOfInteger_of_wide fun k hk => ?_
    have := k.toInt_lt
    omega
  obtain ⟨rank, hrank⟩ : ∃ rank : Fin binary64.size, binary64.nearestRank n 1 = rank :=
    ⟨⟨_, Nat.lt_of_le_of_lt hsize (by decide)⟩, rfl⟩
  rw [hrank] at hle hexponent
  have hne : rank.val ≠ 0 := by omega
  have hn : Double.ofInt n = .finite false rank :=
    Double.ofInt_eq_finite_iff.2 ⟨by omega, by rw [Int.natAbs_natCast, hrank]⟩
  refine ⟨(shortest binary64 rank).written.coefficient, ⟨fun h => ?_, ?_, fun _ => ?_, ?_, ?_⟩, ?_⟩
  · omega
  · rw [Double.ofInt_shortest hne (by omega), hn]
  · have hthree : 10 ^ 3 ∣ (shortest binary64 rank).written.coefficient := by
      rw [Double.coefficient_written (by omega)]
      exact (Nat.pow_dvd_pow 10 (by omega)).mul_left _
    exact_mod_cast hthree
  · intro _ k j hj hk
    exact_mod_cast Double.pow_dvd_shortest hne (hj.trans hn) hk
  · intro _ k j hj hk hend
    rw [hn]
    exact Double.abs_sub_toRat_le hne (hj.trans hn) hk (by omega) (by exact_mod_cast hend)
  · rw [hvalue, hn, ← text_shortest (by omega)]
    rfl

/-- **The literal of an integer is the numeral of an integer.** -/
theorem exists_writtenAs {n : ℤ} (low : -2 ^ 63 ≤ n) (high : n < 2 ^ 64) :
    ∃ m, WrittenAs n m ∧ (valueOfInteger n).spelling = intText m := by
  rcases Int.lt_or_le n (2 ^ 63) with hfits | hwide
  · have hnot : ¬ 2 ^ 63 ≤ n := Int.not_le.2 hfits
    exact ⟨n, ⟨fun _ => rfl, rfl, fun h => absurd h hnot, fun h => absurd h hnot,
      fun h => absurd h hnot⟩, spelling_of_fits low hfits⟩
  · obtain ⟨k, rfl⟩ := Int.eq_ofNat_of_zero_le (show 0 ≤ n by omega)
    obtain ⟨m, hm, hspelling⟩ := exists_writtenAs_of_wide (n := k) (by omega) (by omega)
    refine ⟨m, hm, hspelling.trans ?_⟩
    rw [intText, if_neg (by omega), Int.natAbs_natCast]

end Json

end Keyset
