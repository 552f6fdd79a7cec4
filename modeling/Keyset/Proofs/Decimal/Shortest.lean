import Keyset.Double
import Keyset.Proofs.Decimal.Rounding

/-!
# The shortest decimal reads back

The search for the shortest decimal ends with a point of the rounding interval, and what lies in the
rounding interval of a magnitude is read as that magnitude.

* `contains_shortest` : the shortest decimal of a magnitude lies in its rounding interval.
* `rankOf_eq_of_contains` : **a numeral in the rounding interval of a rank is read as that rank.**
-/

namespace Keyset

namespace Decimal

/-- The number that a numeral stands for. -/
def Numeral.value (x : Numeral) : ℚ := x.coefficient * 10 ^ x.exponent

namespace RoundingInterval

variable {I : RoundingInterval}

theorem holds_of_pick?_eq_some {t : ℤ} {g : ℕ} (h : I.pick? t = some g) :
    I.holds t g = true := by
  unfold pick? at h
  simp only at h
  split_ifs at h with hfloor hnext hceil
  · cases h
    exact hnext.1
  · cases h
    exact hfloor
  · cases h
    exact hceil

theorem pick?_of_search_eq_some {k : ℕ} {t : ℤ} {x : Numeral} (h : I.search k t = some x) :
    I.pick? x.exponent = some x.coefficient := by
  induction k generalizing t with
  | zero => cases h
  | succ k ih =>
    rw [search] at h
    split at h
    next g hg =>
      cases h
      exact hg
    next => exact ih h

/-- **The search finds nothing but points of the interval.** -/
theorem contains_of_search_eq_some {k : ℕ} {t : ℤ} {x : Numeral} (h : I.search k t = some x) :
    I.Contains x.value :=
  holds_iff_contains.1 (holds_of_pick?_eq_some (pick?_of_search_eq_some h))

theorem contains_middle (hlow : I.low < I.middle) (hhigh : I.middle < I.high) :
    I.Contains (I.middle * 2 ^ I.exponent) := by
  have hpos := two_zpow_pos I.exponent
  have hlow' : (I.low : ℚ) < I.middle := by exact_mod_cast hlow
  have hhigh' : (I.middle : ℚ) < I.high := by exact_mod_cast hhigh
  unfold Contains
  split_ifs
  · exact ⟨(mul_lt_mul_of_pos_right hlow' hpos).le, (mul_lt_mul_of_pos_right hhigh' hpos).le⟩
  · exact ⟨mul_lt_mul_of_pos_right hlow' hpos, mul_lt_mul_of_pos_right hhigh' hpos⟩

theorem value_exact (I : RoundingInterval) : I.exact.value = I.middle * 2 ^ I.exponent := by
  unfold exact Numeral.value
  split_ifs with h
  · obtain ⟨n, hn⟩ := Int.eq_ofNat_of_zero_le h
    simp [hn, Nat.shiftLeft_eq]
  · obtain ⟨n, hn⟩ : ∃ n : ℕ, I.exponent = -(n : ℤ) := ⟨I.exponent.natAbs, by omega⟩
    have hten : (10 : ℚ) ^ n = 5 ^ n * 2 ^ n := by rw [← mul_pow]; norm_num
    simp only [hn, Int.natAbs_neg, Int.natAbs_natCast, Nat.pow_eq, zpow_neg, zpow_natCast, hten]
    push_cast
    field_simp

end RoundingInterval

open RoundingInterval

variable {L : BinaryLayout} {rank : ℕ}

theorem low_lt_middle (hrank : rank ≠ 0) : (ofRank L rank).low < (ofRank L rank).middle := by
  have hm := BinaryLayout.magnitude_ne_zero (L := L) hrank
  simp only [ofRank]
  split_ifs <;> omega

theorem middle_lt_high (L : BinaryLayout) (rank : ℕ) :
    (ofRank L rank).middle < (ofRank L rank).high := by
  simp only [ofRank]
  omega

theorem contains_exact (hrank : rank ≠ 0) :
    (ofRank L rank).Contains (ofRank L rank).exact.value := by
  rw [value_exact]
  exact contains_middle (low_lt_middle hrank) (middle_lt_high L rank)

/-- **The shortest decimal of a magnitude lies in its rounding interval.** -/
theorem contains_shortest (hrank : rank ≠ 0) :
    (ofRank L rank).Contains (shortest L rank).value := by
  rw [shortest, if_neg hrank, RoundingInterval.shortest]
  cases h : (ofRank L rank).search
      ((ofRank L rank).topPlace + (ofRank L rank).exponent.natAbs + 1) (ofRank L rank).topPlace with
  | none => exact contains_exact hrank
  | some x => exact contains_of_search_eq_some h

theorem half_step_le_of_contains (hrank : rank ≠ 0) {v : ℚ} (h : (ofRank L rank).Contains v) :
    (2 : ℚ) ^ (L.minExponent - 1) ≤ v := by
  obtain ⟨hnear, -⟩ := BinaryLayout.near_of_contains h hrank
  obtain ⟨-, hmin, -, -⟩ := BinaryLayout.magnitude_spec L rank
  have hm : (1 : ℚ) ≤ (L.magnitude rank).1 := by
    exact_mod_cast Nat.one_le_iff_ne_zero.2 (BinaryLayout.magnitude_ne_zero hrank)
  have hpos := two_zpow_pos (L.magnitude rank).2
  have hhalf : 1 / 2 ≤ v / 2 ^ (L.magnitude rank).2 := by
    unfold Near at hnear
    split_ifs at hnear <;> linarith [hnear.1]
  rw [le_div_iff₀ hpos] at hhalf
  calc (2 : ℚ) ^ (L.minExponent - 1) ≤ 2 ^ ((L.magnitude rank).2 - 1) :=
        zpow_le_zpow_right₀ (by norm_num) (by omega)
    _ = 1 / 2 * 2 ^ (L.magnitude rank).2 := by rw [zpow_sub_one₀ (by norm_num)]; ring
    _ ≤ v := hhalf

theorem coefficient_ne_zero_of_contains (hrank : rank ≠ 0) {x : Numeral}
    (h : (ofRank L rank).Contains x.value) : x.coefficient ≠ 0 := by
  intro hx
  have hpos := (two_zpow_pos _).trans_le (half_step_le_of_contains hrank h)
  simp [Numeral.value, hx] at hpos

end Decimal

open Decimal

theorem Decimal.Numeral.value_lt (x : Numeral) :
    x.value < 10 ^ (x.exponent + x.coefficient.log2 + 1) := by
  have hlog : (x.coefficient : ℚ) < 10 ^ (x.coefficient.log2 + 1) :=
    calc (x.coefficient : ℚ) < 2 ^ (x.coefficient.log2 + 1) := by
          exact_mod_cast Nat.lt_log2_self
      _ ≤ 10 ^ (x.coefficient.log2 + 1) := pow_le_pow_left₀ (by norm_num) (by norm_num) _
  have hpos : (0 : ℚ) < 10 ^ x.exponent := zpow_pos (by norm_num) _
  have hsplit : (10 : ℚ) ^ (x.exponent + x.coefficient.log2 + 1) =
      10 ^ (x.coefficient.log2 + 1) * 10 ^ x.exponent := by
    rw [add_assoc, add_comm, zpow_add₀ (by norm_num)]
    norm_cast
  rw [hsplit, Numeral.value]
  exact mul_lt_mul_of_pos_right hlog hpos

namespace Double

/-- **A numeral in the rounding interval of a rank is read as that rank**, if no zeros are left out
before its point. -/
theorem rankOf_eq_of_contains {x : Numeral} {rank : ℕ} (hrank : rank ≠ 0) (hx : x.exponent ≤ 0)
    (h : (RoundingInterval.ofRank binary64 rank).Contains x.value) : rankOf binary64 x = rank := by
  have hne := coefficient_ne_zero_of_contains hrank h
  -- the interval does not reach down to the numerals that are told by their size
  have hsize : ¬ x.exponent + x.coefficient.log2 < -400 := by
    intro hsmall
    have hstep := half_step_le_of_contains hrank h
    have hpower : (10 : ℚ) ^ (x.exponent + x.coefficient.log2 + 1) ≤ 10 ^ (-400 : ℤ) :=
      zpow_le_zpow_right₀ (by norm_num) (by omega)
    have hfar : (10 : ℚ) ^ (-400 : ℤ) ≤ 2 ^ (binary64.minExponent - 1) :=
      calc (10 : ℚ) ^ (-400 : ℤ) ≤ 8 ^ (-400 : ℤ) := by
            rw [zpow_neg, zpow_neg]
            exact inv_anti₀ (by positivity) (zpow_le_zpow_left₀ (by norm_num) (by norm_num)
              (by norm_num))
        _ = 2 ^ (3 * -400 : ℤ) := by rw [zpow_mul]; norm_num
        _ ≤ 2 ^ (binary64.minExponent - 1) := zpow_le_zpow_right₀ (by norm_num) (by decide)
    exact absurd (hstep.trans_lt (x.value_lt.trans_le (hpower.trans hfar))) (lt_irrefl _)
  have hten : (10 : ℚ) ≠ 0 := by norm_num
  unfold rankOf
  rw [if_neg hne, if_neg (by omega), if_neg hsize]
  split_ifs with hzero
  · have hexp : x.exponent = 0 := by omega
    rw [hexp]
    refine BinaryLayout.nearestRank_of_contains (by simpa using hne) (by simp) hrank ?_
    simpa [Numeral.value, hexp] using h
  · obtain ⟨n, hn⟩ : ∃ n : ℕ, x.exponent = -(n : ℤ) := ⟨x.exponent.natAbs, by omega⟩
    rw [hn]
    refine BinaryLayout.nearestRank_of_contains hne (by simp) hrank ?_
    simpa [Numeral.value, hn, div_eq_mul_inv] using h

end Double

end Keyset
