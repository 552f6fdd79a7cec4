import Keyset.Decimal.Shortest
import Mathlib.Algebra.Order.Field.Power
import Mathlib.Algebra.Order.Field.Rat
import Mathlib.Tactic.FieldSimp
import Mathlib.Tactic.Linarith
import Mathlib.Tactic.NormNum
import Mathlib.Tactic.Positivity
import Mathlib.Tactic.Ring

/-!
# Rounding to the nearest magnitude

`BinaryLayout.nearestRank` computes with pairs of natural numbers.  Here the pairs are read as
fractions, and it is shown that a fraction in the rounding interval of a magnitude is rounded to
that magnitude.

* `roundHalfEven_eq_of_near` : a fraction within half a unit of an integer is rounded to it, with
  the ends for even integers only.
* `binaryExponent_spec` : a fraction lies between its power of two and the next one.
* `BinaryLayout.nearestRank_of_contains` : **a fraction in the rounding interval of a rank has that
  rank as its nearest one.**
-/

namespace Keyset.Decimal

/-! ### Powers and shifts -/

theorem zpow_eq_toNat_div (a : ℚ) (t : ℤ) : a ^ t = a ^ t.toNat / a ^ (-t).toNat := by
  rcases Int.le_total 0 t with ht | ht
  · obtain ⟨n, rfl⟩ := Int.eq_ofNat_of_zero_le ht
    simp
  · obtain ⟨n, hn⟩ := Int.eq_ofNat_of_zero_le (Int.neg_nonneg_of_nonpos ht)
    obtain rfl : t = -(n : ℤ) := by omega
    simp

theorem two_zpow_pos (q : ℤ) : (0 : ℚ) < 2 ^ q := zpow_pos (by norm_num) q

theorem two_zpow_succ (q : ℤ) : (2 : ℚ) ^ (q + 1) = 2 * 2 ^ q := by
  rw [zpow_add_one₀ (by norm_num), mul_comm]

theorem scaleDown_spec (num : ℕ) {den : ℕ} (hden : den ≠ 0) (q : ℤ) :
    (scaleDown num den q).2 ≠ 0 ∧
      ((scaleDown num den q).1 : ℚ) / (scaleDown num den q).2 = num / den / 2 ^ q := by
  have hd : (den : ℚ) ≠ 0 := by exact_mod_cast hden
  unfold scaleDown
  split_ifs with hq
  · obtain ⟨n, rfl⟩ := Int.eq_ofNat_of_zero_le hq
    simp only [Int.toNat_natCast, Nat.shiftLeft_eq, zpow_natCast]
    refine ⟨by positivity, ?_⟩
    push_cast
    field_simp
  · obtain ⟨n, rfl⟩ : ∃ n : ℕ, q = -(n : ℤ) := ⟨q.natAbs, by omega⟩
    simp only [Int.natAbs_neg, Int.natAbs_natCast, Nat.shiftLeft_eq, zpow_neg, zpow_natCast]
    refine ⟨hden, ?_⟩
    push_cast
    field_simp

/-- **A positive fraction lies between the power of its binary exponent and the next power.** -/
theorem binaryExponent_spec {num den : ℕ} (hnum : num ≠ 0) (hden : den ≠ 0) :
    (2 : ℚ) ^ binaryExponent num den ≤ num / den ∧
      (num : ℚ) / den < 2 ^ (binaryExponent num den + 1) := by
  have hd : (0 : ℚ) < den := by exact_mod_cast Nat.pos_of_ne_zero hden
  have hnlow : (2 : ℚ) ^ num.log2 ≤ num := by exact_mod_cast Nat.log2_self_le hnum
  have hnhigh : (num : ℚ) < 2 ^ (num.log2 + 1) := by exact_mod_cast Nat.lt_log2_self
  have hdlow : (2 : ℚ) ^ den.log2 ≤ den := by exact_mod_cast Nat.log2_self_le hden
  have hdhigh : (den : ℚ) < 2 ^ (den.log2 + 1) := by exact_mod_cast Nat.lt_log2_self
  obtain ⟨hscaled, hvalue⟩ := scaleDown_spec num hden (num.log2 - den.log2)
  have hs : (0 : ℚ) < (scaleDown num den (num.log2 - den.log2)).2 := by
    exact_mod_cast Nat.pos_of_ne_zero hscaled
  have htop := two_zpow_pos ((num.log2 : ℤ) - den.log2)
  -- the two logarithms tell the exponent up to one
  have hratio : (2 : ℚ) ^ ((num.log2 : ℤ) - den.log2) = 2 ^ num.log2 / 2 ^ den.log2 := by
    rw [zpow_sub₀ (by norm_num), zpow_natCast, zpow_natCast]
  have hover : (num : ℚ) / den < 2 ^ ((num.log2 : ℤ) - den.log2 + 1) := by
    rw [two_zpow_succ, hratio, div_lt_iff₀ hd]
    calc (num : ℚ) < 2 ^ (num.log2 + 1) := hnhigh
      _ = 2 * (2 ^ num.log2 / 2 ^ den.log2) * 2 ^ den.log2 := by field_simp; ring
      _ ≤ 2 * (2 ^ num.log2 / 2 ^ den.log2) * den := by gcongr
  have hunder : (2 : ℚ) ^ ((num.log2 : ℤ) - den.log2 - 1) < num / den := by
    rw [zpow_sub_one₀ (by norm_num), hratio, lt_div_iff₀ hd]
    calc (2 : ℚ) ^ num.log2 / 2 ^ den.log2 * 2⁻¹ * den
        < 2 ^ num.log2 / 2 ^ den.log2 * 2⁻¹ * 2 ^ (den.log2 + 1) := by gcongr
      _ = 2 ^ num.log2 := by field_simp; ring
      _ ≤ num := hnlow
  unfold binaryExponent
  simp only
  split_ifs with hle
  · refine ⟨?_, hover⟩
    have hone : (1 : ℚ) ≤ num / den / 2 ^ ((num.log2 : ℤ) - den.log2) := by
      rw [← hvalue, one_le_div hs]
      exact_mod_cast hle
    rwa [one_le_div htop] at hone
  · refine ⟨hunder.le, ?_⟩
    have hone : (num : ℚ) / den / 2 ^ ((num.log2 : ℤ) - den.log2) < 1 := by
      rw [← hvalue, div_lt_one hs]
      exact_mod_cast Nat.lt_of_not_le hle
    rwa [div_lt_one htop, ← Int.sub_add_cancel ((num.log2 : ℤ) - den.log2) 1] at hone

/-! ### Rounding to an integer -/

/-- The number is rounded to `m`: it is no more than half a unit away, and exactly half a unit only
if `m` is even. -/
def Near (m : ℕ) (u : ℚ) : Prop :=
  if m % 2 = 0 then m - 1 / 2 ≤ u ∧ u ≤ m + 1 / 2 else m - 1 / 2 < u ∧ u < m + 1 / 2

theorem Near.bounds {m : ℕ} {u : ℚ} (h : Near m u) : (m : ℚ) - 1 / 2 ≤ u ∧ u ≤ m + 1 / 2 := by
  unfold Near at h
  split_ifs at h
  · exact h
  · exact ⟨h.1.le, h.2.le⟩

theorem roundHalfEven_eq {n d m : ℕ} (hlow : 2 * (m * d) ≤ 2 * n + d)
    (hhigh : 2 * n ≤ 2 * (m * d) + d)
    (hodd : m % 2 ≠ 0 → 2 * (m * d) < 2 * n + d ∧ 2 * n < 2 * (m * d) + d) (hd : 0 < d) :
    roundHalfEven n d = m := by
  unfold roundHalfEven
  simp only
  rcases Nat.le_total (m * d) n with hle | hle
  · -- not below the integer: it is the quotient
    obtain ⟨r, rfl⟩ := Nat.exists_eq_add_of_le hle
    have hr : r < d := by
      rcases Nat.lt_or_ge r d with hr | hr
      · exact hr
      · omega
    have hdiv : (m * d + r) / d = m := by
      rw [Nat.mul_comm, Nat.mul_add_div hd, Nat.div_eq_of_lt hr, Nat.add_zero]
    have hmod : (m * d + r) % d = r := by
      rw [Nat.mul_comm, Nat.mul_add_mod, Nat.mod_eq_of_lt hr]
    rw [hdiv, hmod, if_pos]
    omega
  · rcases Nat.eq_or_lt_of_le hle with rfl | hlt
    · rw [Nat.mul_div_cancel _ hd, Nat.mul_mod_left, if_pos]
      omega
    · -- below the integer: the quotient is one less
      obtain ⟨k, rfl⟩ : ∃ k, m = k + 1 := by
        cases m with
        | zero => omega
        | succ k => exact ⟨k, rfl⟩
      rw [Nat.add_mul, Nat.one_mul] at hlow hhigh hodd hlt
      obtain ⟨r, rfl⟩ : ∃ r, n = k * d + r := Nat.exists_eq_add_of_le (by omega)
      have hr : r < d := by omega
      have hdiv : (k * d + r) / d = k := by
        rw [Nat.mul_comm, Nat.mul_add_div hd, Nat.div_eq_of_lt hr, Nat.add_zero]
      have hmod : (k * d + r) % d = r := by
        rw [Nat.mul_comm, Nat.mul_add_mod, Nat.mod_eq_of_lt hr]
      rw [hdiv, hmod, if_neg]
      omega

theorem near_div_iff {n d m : ℕ} (hd : d ≠ 0) :
    Near m ((n : ℚ) / d) ↔
      if m % 2 = 0 then 2 * (m * d) ≤ 2 * n + d ∧ 2 * n ≤ 2 * (m * d) + d
      else 2 * (m * d) < 2 * n + d ∧ 2 * n < 2 * (m * d) + d := by
  have hpos : (0 : ℚ) < d := by exact_mod_cast Nat.pos_of_ne_zero hd
  have hle : (m : ℚ) - 1 / 2 ≤ n / d ↔ 2 * (m * d) ≤ 2 * n + d := by
    rw [le_div_iff₀ hpos, ← Nat.cast_le (α := ℚ)]
    push_cast
    constructor <;> intro h <;> linarith
  have hge : (n : ℚ) / d ≤ m + 1 / 2 ↔ 2 * n ≤ 2 * (m * d) + d := by
    rw [div_le_iff₀ hpos, ← Nat.cast_le (α := ℚ)]
    push_cast
    constructor <;> intro h <;> linarith
  have hlt : (m : ℚ) - 1 / 2 < n / d ↔ 2 * (m * d) < 2 * n + d := by
    rw [lt_div_iff₀ hpos, ← Nat.cast_lt (α := ℚ)]
    push_cast
    constructor <;> intro h <;> linarith
  have hgt : (n : ℚ) / d < m + 1 / 2 ↔ 2 * n < 2 * (m * d) + d := by
    rw [div_lt_iff₀ hpos, ← Nat.cast_lt (α := ℚ)]
    push_cast
    constructor <;> intro h <;> linarith
  rw [Near, hle, hge, hlt, hgt]

/-- **A fraction near an integer is rounded to it.** -/
theorem roundHalfEven_eq_of_near {n d m : ℕ} (hd : d ≠ 0) (h : Near m ((n : ℚ) / d)) :
    roundHalfEven n d = m := by
  rw [near_div_iff hd] at h
  split_ifs at h with heven
  · exact roundHalfEven_eq h.1 h.2 (fun hodd => absurd heven hodd) (Nat.pos_of_ne_zero hd)
  · exact roundHalfEven_eq h.1.le h.2.le (fun _ => h) (Nat.pos_of_ne_zero hd)

theorem near_roundHalfEven (n : ℕ) {d : ℕ} (hd : d ≠ 0) :
    Near (roundHalfEven n d) ((n : ℚ) / d) := by
  rw [near_div_iff hd]
  have hmod := Nat.mod_lt n (Nat.pos_of_ne_zero hd)
  have hdiv := Nat.div_add_mod' n d
  have hsucc : (n / d + 1) * d = n / d * d + d := Nat.succ_mul _ _
  unfold roundHalfEven
  simp only
  generalize hq : n / d = k at *
  generalize n % d = r at *
  split_ifs <;> (try rw [hsucc]) <;> omega

/-! ### Rounding to a magnitude -/

namespace RoundingInterval

/-- The number lies in the interval. -/
def Contains (I : RoundingInterval) (v : ℚ) : Prop :=
  if I.closed then I.low * 2 ^ I.exponent ≤ v ∧ v ≤ I.high * 2 ^ I.exponent
  else I.low * 2 ^ I.exponent < v ∧ v < I.high * 2 ^ I.exponent

theorem stepOver_spec (I : RoundingInterval) (t : ℤ) :
    0 < (I.stepOver t).2 ∧
      ((I.stepOver t).1 : ℚ) / (I.stepOver t).2 = 2 ^ I.exponent / 10 ^ t := by
  simp only [stepOver, Nat.shiftLeft_eq, Nat.pow_eq]
  refine ⟨by positivity, ?_⟩
  rw [zpow_eq_toNat_div 2, zpow_eq_toNat_div 10]
  push_cast
  field_simp

theorem holds_iff_contains {I : RoundingInterval} {t : ℤ} {g : ℕ} :
    I.holds t g = true ↔ I.Contains (g * 10 ^ t) := by
  obtain ⟨hden, hstep⟩ := I.stepOver_spec t
  have hd : (0 : ℚ) < (I.stepOver t).2 := by exact_mod_cast hden
  have ht : (0 : ℚ) < 10 ^ t := zpow_pos (by norm_num) t
  have hbound (b : ℕ) : (b : ℚ) * 2 ^ I.exponent =
      b * (I.stepOver t).1 / (I.stepOver t).2 * 10 ^ t := by
    rw [mul_div_assoc, hstep]
    field_simp
  unfold holds Contains
  simp only [hbound]
  split_ifs with hc
  · simp only [Bool.and_eq_true, decide_eq_true_eq, mul_le_mul_iff_of_pos_right ht]
    rw [div_le_iff₀ hd, le_div_iff₀ hd]
    norm_cast
  · simp only [Bool.and_eq_true, decide_eq_true_eq, mul_lt_mul_iff_of_pos_right ht]
    rw [div_lt_iff₀ hd, lt_div_iff₀ hd]
    norm_cast

end RoundingInterval

namespace BinaryLayout

variable {L : BinaryLayout} {rank : ℕ}

/-- A rank counts the steps of all smaller exponents and then those of its own.  Only the smallest
exponent has significands without a leading one. -/
theorem magnitude_spec (L : BinaryLayout) (rank : ℕ) :
    rank = ((L.magnitude rank).2 - L.minExponent).toNat * 2 ^ L.fractionBits +
        (L.magnitude rank).1 ∧
      L.minExponent ≤ (L.magnitude rank).2 ∧ (L.magnitude rank).1 < 2 ^ (L.fractionBits + 1) ∧
      (L.minExponent < (L.magnitude rank).2 → 2 ^ L.fractionBits ≤ (L.magnitude rank).1) := by
  have hunit : 0 < 2 ^ L.fractionBits := Nat.two_pow_pos _
  have hdouble : 2 ^ (L.fractionBits + 1) = 2 * 2 ^ L.fractionBits := by
    rw [Nat.pow_succ, Nat.mul_comm]
  unfold magnitude
  simp only [Nat.shiftLeft_eq, Nat.one_mul]
  generalize 2 ^ L.fractionBits = unit at hunit hdouble
  split_ifs with h
  · refine ⟨by simp, Int.le_refl _, by omega, fun hq => absurd hq (Int.lt_irrefl _)⟩
  · have hmod := Nat.mod_lt rank hunit
    have hdiv := Nat.div_add_mod' rank unit
    have hquot : 1 ≤ rank / unit := (Nat.one_le_div_iff hunit).2 (Nat.le_of_not_lt h)
    obtain ⟨k, hk⟩ : ∃ k, rank / unit = k + 1 := ⟨_, (Nat.sub_add_cancel hquot).symm⟩
    rw [hk, Nat.add_mul, Nat.one_mul] at hdiv
    simp only [hk, Nat.add_sub_cancel]
    have hsteps : (L.minExponent + (k : ℤ) - L.minExponent).toNat = k := by omega
    rw [hsteps]
    omega

theorem magnitude_ne_zero (h : rank ≠ 0) : (L.magnitude rank).1 ≠ 0 := by
  obtain ⟨hrank, -, -, hnormal⟩ := magnitude_spec L rank
  intro hm
  have hunit : 0 < 2 ^ L.fractionBits := Nat.two_pow_pos _
  rcases Int.lt_or_le L.minExponent (L.magnitude rank).2 with hq | hq
  · have := hnormal hq
    omega
  · have hsteps : ((L.magnitude rank).2 - L.minExponent).toNat = 0 := by omega
    rw [hm, hsteps] at hrank
    omega

/-- The fractions in a rounding interval, in units of the last place of its magnitude.  Where a
power of two begins they come only half as far below it. -/
theorem contains_iff {v : ℚ} (hrank : rank ≠ 0) :
    (RoundingInterval.ofRank L rank).Contains v ↔
      let m := (L.magnitude rank).1
      let u := v / 2 ^ (L.magnitude rank).2
      let lower : ℚ := m -
        if m = 2 ^ L.fractionBits ∧ L.minExponent < (L.magnitude rank).2 then 1 / 4 else 1 / 2
      if m % 2 = 0 then lower ≤ u ∧ u ≤ m + 1 / 2 else lower < u ∧ u < m + 1 / 2 := by
  have hm : 1 ≤ (L.magnitude rank).1 := Nat.one_le_iff_ne_zero.2 (magnitude_ne_zero hrank)
  unfold RoundingInterval.ofRank RoundingInterval.Contains
  simp only [Nat.shiftLeft_eq, Nat.one_mul, decide_eq_true_eq]
  generalize (L.magnitude rank).1 = m at hm
  generalize (L.magnitude rank).2 = q
  have hpos := two_zpow_pos q
  have hquarter : (2 : ℚ) ^ (q - 2) = 2 ^ q / 4 := by
    rw [zpow_sub₀ (by norm_num)]
    norm_num
  rw [hquarter]
  generalize (2 : ℚ) ^ q = unit at hpos
  obtain ⟨u, rfl⟩ : ∃ u, v = u * unit := ⟨v / unit, (div_mul_cancel₀ v hpos.ne').symm⟩
  rw [mul_div_cancel_right₀ u hpos.ne']
  have hlow : ((4 * m - if m = 2 ^ L.fractionBits ∧ L.minExponent < q then 1 else 2 : ℕ) : ℚ) =
      4 * (m - if m = 2 ^ L.fractionBits ∧ L.minExponent < q then 1 / 4 else 1 / 2) := by
    split_ifs <;> rw [Nat.cast_sub (by omega)] <;> push_cast <;> ring
  have hhigh : ((4 * m + 2 : ℕ) : ℚ) = 4 * (m + 1 / 2) := by
    push_cast
    ring
  -- multiples of the unit are compared by their factors
  have hfactor (a : ℚ) : 4 * a * (unit / 4) = a * unit := by ring
  rw [hlow, hhigh, hfactor, hfactor]
  simp only [mul_le_mul_iff_of_pos_right hpos, mul_lt_mul_iff_of_pos_right hpos]

theorem near_of_contains {v : ℚ} (h : (RoundingInterval.ofRank L rank).Contains v)
    (hrank : rank ≠ 0) :
    Near (L.magnitude rank).1 (v / 2 ^ (L.magnitude rank).2) ∧
      ((L.magnitude rank).1 = 2 ^ L.fractionBits → L.minExponent < (L.magnitude rank).2 →
        (L.magnitude rank).1 - 1 / 4 ≤ v / 2 ^ (L.magnitude rank).2) := by
  rw [contains_iff hrank] at h
  dsimp only at h
  unfold Near
  split_ifs at h ⊢ with heven hbottom hbottom
  · exact ⟨⟨by linarith, by linarith⟩, fun _ _ => by linarith⟩
  · exact ⟨⟨by linarith, by linarith⟩, fun hm hq => absurd ⟨hm, hq⟩ hbottom⟩
  · exact ⟨⟨by linarith, by linarith⟩, fun _ _ => by linarith⟩
  · exact ⟨⟨by linarith, by linarith⟩, fun hm hq => absurd ⟨hm, hq⟩ hbottom⟩

theorem two_zpow_add_bits (L : BinaryLayout) (q : ℤ) :
    (2 : ℚ) ^ ((L.fractionBits : ℤ) + q) = 2 ^ L.fractionBits * 2 ^ q := by
  rw [zpow_add₀ (by norm_num), zpow_natCast]

section Scale

/-! A fraction `v` with binary exponent `e` is rounded at the scale `e - L.fractionBits`, or at the
smallest one.  Here `v` is near the magnitude `m * 2 ^ q`. -/

variable {v : ℚ} {e q : ℤ} {m : ℕ}

theorem scale_le (hlow : (2 : ℚ) ^ e ≤ v) (hupper : v / 2 ^ q ≤ (m : ℚ) + 1 / 2)
    (hsmall : m < 2 ^ (L.fractionBits + 1)) : e - L.fractionBits ≤ q := by
  have hm : (m : ℚ) + 1 ≤ 2 * 2 ^ L.fractionBits := by
    rw [mul_comm, ← pow_succ]
    exact_mod_cast hsmall
  have hv : v < 2 ^ ((L.fractionBits : ℤ) + q + 1) := by
    rw [two_zpow_succ, two_zpow_add_bits, ← mul_assoc, ← div_lt_iff₀ (two_zpow_pos q)]
    linarith
  have := (zpow_lt_zpow_iff_right₀ (by norm_num)).1 (hlow.trans_lt hv)
  omega

theorem lt_of_scale_lt (hhigh : v < (2 : ℚ) ^ (e + 1)) (hlt : e - L.fractionBits < q) :
    v / 2 ^ q < 2 ^ L.fractionBits := by
  rw [div_lt_iff₀ (two_zpow_pos q), ← two_zpow_add_bits]
  exact hhigh.trans_le ((zpow_le_zpow_iff_right₀ (by norm_num)).2 (by omega))

theorem significand_eq_of_lt (hbelow : v / 2 ^ q < 2 ^ L.fractionBits)
    (hlower : (m : ℚ) - 1 / 2 ≤ v / 2 ^ q) (hnormal : 2 ^ L.fractionBits ≤ m) :
    m = 2 ^ L.fractionBits := by
  refine Nat.le_antisymm (Nat.le_of_not_lt fun hm => ?_) hnormal
  have : (2 : ℚ) ^ L.fractionBits + 1 ≤ m := by exact_mod_cast hm
  linarith

theorem le_scale_add_one (hhigh : v < (2 : ℚ) ^ (e + 1))
    (hquarter : (2 : ℚ) ^ L.fractionBits - 1 / 4 ≤ v / 2 ^ q) : q ≤ e - L.fractionBits + 1 := by
  have hunit : (1 : ℚ) ≤ 2 ^ L.fractionBits := one_le_pow₀ (by norm_num)
  have hv : (2 : ℚ) ^ ((L.fractionBits : ℤ) + q - 1) ≤ v := by
    rw [zpow_sub_one₀ (by norm_num), two_zpow_add_bits, mul_right_comm,
      ← le_div_iff₀ (two_zpow_pos q)]
    linarith
  have := (zpow_lt_zpow_iff_right₀ (by norm_num)).1 (hv.trans_lt hhigh)
  omega

theorem near_at_half_scale (hquarter : (2 : ℚ) ^ L.fractionBits - 1 / 4 ≤ v / 2 ^ q)
    (hbelow : v / 2 ^ q < 2 ^ L.fractionBits) :
    Near (2 ^ (L.fractionBits + 1)) (v / 2 ^ (q - 1)) := by
  have hdouble : v / 2 ^ (q - 1) = 2 * (v / 2 ^ q) := by
    rw [zpow_sub_one₀ (by norm_num)]
    field_simp
  unfold Near
  rw [if_pos (by rw [Nat.pow_succ, Nat.mul_mod_left]), hdouble]
  push_cast
  rw [pow_succ]
  constructor <;> linarith

end Scale

/-- **A fraction in the rounding interval of a rank has that rank as its nearest one.** -/
theorem nearestRank_of_contains {num den : ℕ} (hnum : num ≠ 0) (hden : den ≠ 0) (hrank : rank ≠ 0)
    (h : (RoundingInterval.ofRank L rank).Contains (num / den)) : L.nearestRank num den = rank := by
  obtain ⟨hnear, hfourth⟩ := near_of_contains h hrank
  obtain ⟨hsum, hmin, hsmall, hnormal⟩ := magnitude_spec L rank
  obtain ⟨hlow, hhigh⟩ := binaryExponent_spec hnum hden
  obtain ⟨hlower, hupper⟩ := hnear.bounds
  unfold nearestRank
  rw [if_neg hnum]
  simp only [Nat.shiftLeft_eq]
  generalize (L.magnitude rank).1 = m at *
  generalize (L.magnitude rank).2 = q at *
  generalize binaryExponent num den = e at *
  generalize hq' : max (e - (L.fractionBits : ℤ)) L.minExponent = q'
  obtain ⟨hscaled, hvalue⟩ := scaleDown_spec num hden q'
  generalize (num : ℚ) / den = v at *
  have hle := scale_le hlow hupper hsmall
  rcases (by omega : q' = q ∨ q' < q) with rfl | hlt
  · rw [roundHalfEven_eq_of_near hscaled (hvalue ▸ hnear), ← hsum]
  · have hminlt : L.minExponent < q := by omega
    have hbelow : v / 2 ^ q < 2 ^ L.fractionBits := lt_of_scale_lt hhigh (by omega)
    have hbottom := significand_eq_of_lt hbelow hlower (hnormal hminlt)
    have hquarter := hfourth hbottom hminlt
    rw [hbottom] at hquarter hsum
    push_cast at hquarter
    have hone : q' = q - 1 := by
      have := le_scale_add_one hhigh hquarter
      omega
    have hpower := near_at_half_scale hquarter hbelow
    rw [← hone] at hpower
    have hsteps : (q - L.minExponent).toNat = (q' - L.minExponent).toNat + 1 := by omega
    rw [roundHalfEven_eq_of_near hscaled (hvalue ▸ hpower), hsum, hsteps]
    ring

end BinaryLayout

end Keyset.Decimal
