import Keyset.Proofs.Decimal.Shortest
import Mathlib.Data.Rat.Floor

/-!
# The nearest magnitude and the fewest digits

The converse of what makes a written double readable: a fraction lies in the rounding interval of
its nearest magnitude.  No number in this interval has fewer digits than the one that is written,
and of those that have as few none is nearer.

* `BinaryLayout.Rounds` : the significand and the scale to which a fraction is rounded.
* `BinaryLayout.contains_nearestRank` : **a fraction lies in the interval of its nearest rank.**
* `Decimal.le_exponent_shortest` : **no number in the interval ends in more zeros than the shortest
  one.**
* `Decimal.abs_sub_shortest_le` : **of those that end in as many zeros none is nearer to the
  magnitude.**
-/

namespace Keyset.Decimal

/-! ### The nearest magnitude -/

namespace BinaryLayout

variable {L : BinaryLayout}

theorem magnitude_eq {q : ℤ} {m : ℕ} (hmin : L.minExponent ≤ q)
    (hsmall : m < 2 ^ (L.fractionBits + 1)) (hnormal : L.minExponent < q → 2 ^ L.fractionBits ≤ m) :
    L.magnitude ((q - L.minExponent).toNat * 2 ^ L.fractionBits + m) = (m, q) := by
  have hunit : 0 < 2 ^ L.fractionBits := Nat.two_pow_pos _
  rw [Nat.pow_succ, Nat.mul_two] at hsmall
  obtain ⟨s, rfl⟩ : ∃ s : ℕ, q = L.minExponent + s := ⟨(q - L.minExponent).toNat, by omega⟩
  have hsteps : (L.minExponent + (s : ℤ) - L.minExponent).toNat = s := by omega
  unfold magnitude
  simp only [Nat.shiftLeft_eq, Nat.one_mul, hsteps]
  generalize 2 ^ L.fractionBits = unit at hunit hsmall hnormal
  rcases Nat.lt_or_ge m unit with hlt | hge
  · obtain rfl : s = 0 := by
      by_contra hs
      have := hnormal (by omega)
      omega
    simp [hlt]
  · obtain ⟨r, rfl⟩ := Nat.exists_eq_add_of_le hge
    have hr : r < unit := by omega
    have hsum : s * unit + (unit + r) = r + (s + 1) * unit := by ring
    have hle : unit ≤ (s + 1) * unit := Nat.le_mul_of_pos_left unit (Nat.succ_pos s)
    rw [hsum, if_neg (by omega), Nat.add_mul_mod_self_right, Nat.mod_eq_of_lt hr,
      Nat.add_mul_div_right _ _ hunit, Nat.div_eq_of_lt hr, Nat.zero_add, Nat.add_sub_cancel]

/-- The fraction is rounded to the significand `m` in units of `2 ^ q`.  It is not above the
significands of this scale, and not below them either, but for the smallest scale. -/
structure Rounds (L : BinaryLayout) (v : ℚ) (q : ℤ) (m : ℕ) : Prop where
  /-- The scale is one of the layout. -/
  scale : L.minExponent ≤ q
  /-- The significand is the rounded one. -/
  near : Near m (v / 2 ^ q)
  /-- The fraction is below the next power of two. -/
  below : v / 2 ^ q < 2 ^ (L.fractionBits + 1)
  /-- It has all the bits that a significand can have. -/
  normal : L.minExponent < q → 2 ^ L.fractionBits ≤ v / 2 ^ q

theorem exists_rounds (L : BinaryLayout) {num den : ℕ} (hnum : num ≠ 0) (hden : den ≠ 0) :
    ∃ q m, L.Rounds (num / den) q m ∧
      L.nearestRank num den = (q - L.minExponent).toNat * 2 ^ L.fractionBits + m := by
  obtain ⟨hlow, hhigh⟩ := binaryExponent_spec hnum hden
  unfold nearestRank
  simp only [if_neg hnum, Nat.shiftLeft_eq]
  generalize binaryExponent num den = e at *
  generalize hq : max (e - (L.fractionBits : ℤ)) L.minExponent = q
  obtain ⟨hscaled, hvalue⟩ := scaleDown_spec num hden q
  refine ⟨q, _, ⟨by omega, ?_, ?_, fun hmin => ?_⟩, rfl⟩
  · rw [← hvalue]
    exact near_roundHalfEven _ hscaled
  · rw [div_lt_iff₀ (two_zpow_pos q), pow_succ, mul_comm (2 ^ L.fractionBits : ℚ), mul_assoc,
      ← two_zpow_add_bits, ← two_zpow_succ]
    exact hhigh.trans_le ((zpow_le_zpow_iff_right₀ (by norm_num)).2 (by omega))
  · rw [le_div_iff₀ (two_zpow_pos q), ← two_zpow_add_bits]
    exact ((zpow_le_zpow_iff_right₀ (by norm_num)).2 (by omega)).trans hlow

namespace Rounds

variable {v : ℚ} {q : ℤ} {m : ℕ}

theorem le (h : L.Rounds v q m) : m ≤ 2 ^ (L.fractionBits + 1) := by
  have : (m : ℚ) < 2 ^ (L.fractionBits + 1) + 1 := by linarith [h.near.bounds.1, h.below]
  exact Nat.le_of_lt_succ (by exact_mod_cast this)

theorem le_significand (h : L.Rounds v q m) (hmin : L.minExponent < q) :
    2 ^ L.fractionBits ≤ m := by
  have : (2 : ℚ) ^ L.fractionBits < m + 1 := by linarith [h.near.bounds.2, h.normal hmin]
  exact Nat.le_of_lt_succ (by exact_mod_cast this)

theorem contains_of_lt (h : L.Rounds v q m) (hlt : m < 2 ^ (L.fractionBits + 1))
    (hrank : (q - L.minExponent).toNat * 2 ^ L.fractionBits + m ≠ 0) :
    (RoundingInterval.ofRank L
      ((q - L.minExponent).toNat * 2 ^ L.fractionBits + m)).Contains v := by
  have hquarter (hbottom : m = 2 ^ L.fractionBits ∧ L.minExponent < q) :
      (m : ℚ) - 1 / 4 < v / 2 ^ q := by
    have hnormal := h.normal hbottom.2
    rw [hbottom.1]
    push_cast
    linarith
  have hnear := h.near
  unfold Near at hnear
  rw [contains_iff hrank, magnitude_eq h.scale hlt h.le_significand]
  dsimp only
  split_ifs at hnear ⊢ with heven hbottom hbottom
  · exact ⟨(hquarter hbottom).le, hnear.2⟩
  · exact hnear
  · exact ⟨hquarter hbottom, hnear.2⟩
  · exact hnear

/-- A fraction whose significand does not fit is rounded up to the power of two with which the next
scale begins. -/
theorem contains_of_carry (hbits : L.fractionBits ≠ 0)
    (h : L.Rounds v q (2 ^ (L.fractionBits + 1)))
    (hrank : (q - L.minExponent).toNat * 2 ^ L.fractionBits + 2 ^ (L.fractionBits + 1) ≠ 0) :
    (RoundingInterval.ofRank L ((q - L.minExponent).toNat * 2 ^ L.fractionBits +
      2 ^ (L.fractionBits + 1))).Contains v := by
  have hscale := h.scale
  have hsteps : (q - L.minExponent).toNat * 2 ^ L.fractionBits + 2 ^ (L.fractionBits + 1) =
      (q + 1 - L.minExponent).toNat * 2 ^ L.fractionBits + 2 ^ L.fractionBits := by
    have hone : (q + 1 - L.minExponent).toNat = (q - L.minExponent).toNat + 1 := by omega
    rw [hone]
    ring
  have heven : 2 ^ L.fractionBits % 2 = 0 := by
    obtain ⟨k, hk⟩ := Nat.exists_eq_succ_of_ne_zero hbits
    rw [hk, Nat.pow_succ, Nat.mul_mod_left]
  have hhalf : v / 2 ^ (q + 1) = v / 2 ^ q / 2 := by
    rw [two_zpow_succ]
    field_simp
  have hlower := h.near.bounds.1
  have hbelow := h.below
  rw [contains_iff hrank, hsteps,
    magnitude_eq (by omega) (Nat.pow_lt_pow_succ (by norm_num)) fun _ => le_rfl]
  dsimp only
  rw [if_pos heven, if_pos ⟨rfl, by omega⟩, hhalf]
  push_cast at hlower ⊢
  rw [pow_succ] at hlower hbelow
  constructor <;> linarith

end Rounds

/-- **A fraction lies in the rounding interval of its nearest rank.** -/
theorem contains_nearestRank (hbits : L.fractionBits ≠ 0) {num den : ℕ} (hnum : num ≠ 0)
    (hden : den ≠ 0) (hrank : L.nearestRank num den ≠ 0) :
    (RoundingInterval.ofRank L (L.nearestRank num den)).Contains (num / den) := by
  obtain ⟨q, m, hrounds, hnearest⟩ := exists_rounds L hnum hden
  rw [hnearest] at hrank ⊢
  rcases Nat.lt_or_eq_of_le hrounds.le with hlt | rfl
  · exact hrounds.contains_of_lt hlt hrank
  · exact hrounds.contains_of_carry hbits hrank

end BinaryLayout

/-! ### The fewest digits -/

namespace RoundingInterval

variable {I : RoundingInterval}

theorem Contains.between {u v w : ℚ} (hu : I.Contains u) (hw : I.Contains w) (huv : u ≤ v)
    (hvw : v ≤ w) : I.Contains v := by
  unfold Contains at *
  split_ifs at *
  · exact ⟨hu.1.trans huv, hvw.trans hw.2⟩
  · exact ⟨hu.1.trans_le huv, hvw.trans_lt hw.2⟩

/-- The point of the grid that is next to the magnitude and not above it. -/
def below (I : RoundingInterval) (t : ℤ) : ℕ := I.middle * (I.stepOver t).1 / (I.stepOver t).2

/-- How far the magnitude is from this point, in units of the grid. -/
def rest (I : RoundingInterval) (t : ℤ) : ℚ :=
  (I.middle * (I.stepOver t).1 % (I.stepOver t).2 : ℕ) / (I.stepOver t).2

theorem rest_spec (I : RoundingInterval) (t : ℤ) : 0 ≤ I.rest t ∧ I.rest t < 1 ∧
    (I.middle : ℚ) * 2 ^ I.exponent = (I.below t + I.rest t) * 10 ^ t := by
  obtain ⟨hden, hstep⟩ := I.stepOver_spec t
  have hd : (0 : ℚ) < (I.stepOver t).2 := by exact_mod_cast hden
  have ht : (0 : ℚ) < 10 ^ t := zpow_pos (by norm_num) t
  unfold rest below
  refine ⟨by positivity, ?_, ?_⟩
  · rw [div_lt_one hd]
    exact_mod_cast Nat.mod_lt _ hden
  · have hdivide : (I.middle : ℚ) * (I.stepOver t).1 = (I.stepOver t).2 *
        (I.middle * (I.stepOver t).1 / (I.stepOver t).2 : ℕ) +
        (I.middle * (I.stepOver t).1 % (I.stepOver t).2 : ℕ) := by
      exact_mod_cast (Nat.div_add_mod _ _).symm
    have hpower : (2 : ℚ) ^ I.exponent = (I.stepOver t).1 / (I.stepOver t).2 * 10 ^ t := by
      rw [hstep]
      field_simp
    rw [hpower, ← mul_assoc, ← mul_div_assoc, hdivide]
    field_simp

theorem pick?_eq (I : RoundingInterval) (t : ℤ) : I.pick? t =
    if I.holds t (I.below t) then
      if I.holds t (I.below t + 1) ∧ 1 / 2 ≤ I.rest t then some (I.below t + 1)
      else some (I.below t)
    else if I.holds t (I.below t + 1) then some (I.below t + 1) else none := by
  obtain ⟨hden, -⟩ := I.stepOver_spec t
  have hd : (0 : ℚ) < (I.stepOver t).2 := by exact_mod_cast hden
  have hhalf : 1 / 2 ≤ I.rest t ↔
      (I.stepOver t).2 ≤ 2 * (I.middle * (I.stepOver t).1 % (I.stepOver t).2) := by
    rw [rest, le_div_iff₀ hd, ← Nat.cast_le (α := ℚ)]
    push_cast
    constructor <;> intro h <;> linarith
  simp only [hhalf]
  rfl

section Grid

variable {t : ℤ} {g : ℕ} (hlow : I.low < I.middle) (hhigh : I.middle < I.high)

include hlow hhigh

theorem holds_below (h : I.holds t g = true) (hg : g ≤ I.below t) :
    I.holds t (I.below t) = true := by
  obtain ⟨hrest, -, hmiddle⟩ := I.rest_spec t
  have hg : (g : ℚ) ≤ I.below t := by exact_mod_cast hg
  rw [holds_iff_contains] at h ⊢
  refine h.between (contains_middle hlow hhigh) ?_ ?_
  · gcongr
  · rw [hmiddle]
    gcongr
    linarith

theorem holds_above (h : I.holds t g = true) (hg : I.below t < g) :
    I.holds t (I.below t + 1) = true := by
  obtain ⟨-, hrest, hmiddle⟩ := I.rest_spec t
  have hg : (I.below t + 1 : ℚ) ≤ g := by exact_mod_cast hg
  rw [holds_iff_contains] at h ⊢
  push_cast
  refine (contains_middle hlow hhigh).between h ?_ ?_
  · rw [hmiddle]
    gcongr
  · gcongr

theorem exists_pick?_eq_some (h : I.holds t g = true) : ∃ g', I.pick? t = some g' := by
  rw [pick?_eq]
  split_ifs with hfirst hsecond hthird
  · exact ⟨_, rfl⟩
  · exact ⟨_, rfl⟩
  · exact ⟨_, rfl⟩
  · rcases Nat.lt_or_ge (I.below t) g with hlt | hge
    · exact absurd (holds_above hlow hhigh h hlt) hthird
    · exact absurd (holds_below hlow hhigh h hge) hfirst

/-- **No point of the grid in the interval is nearer to the magnitude** than the one that is
taken. -/
theorem abs_sub_middle_le_of_pick? {g' : ℕ} (hpick : I.pick? t = some g')
    (h : I.holds t g = true) : |(g' : ℚ) * 10 ^ t - I.middle * 2 ^ I.exponent| ≤
      |(g : ℚ) * 10 ^ t - I.middle * 2 ^ I.exponent| := by
  obtain ⟨hrest, hone, hmiddle⟩ := I.rest_spec t
  have hscale (x : ℕ) : |(x : ℚ) * 10 ^ t - I.middle * 2 ^ I.exponent| =
      |x - (I.below t + I.rest t)| * 10 ^ t := by
    rw [hmiddle, ← sub_mul, abs_mul, abs_of_pos (zpow_pos (by norm_num : (0 : ℚ) < 10) t)]
  -- the distances of the points on both sides, in units of the grid
  have hunder (hg : g ≤ I.below t) : I.rest t ≤ |(g : ℚ) - (I.below t + I.rest t)| := by
    have hg : (g : ℚ) ≤ I.below t := by exact_mod_cast hg
    rw [abs_of_nonpos (by linarith)]
    linarith
  have hover (hg : I.below t < g) : 1 - I.rest t ≤ |(g : ℚ) - (I.below t + I.rest t)| := by
    have hg : (I.below t + 1 : ℚ) ≤ g := by exact_mod_cast hg
    rw [abs_of_nonneg (by linarith)]
    linarith
  have hfirst : |(I.below t : ℚ) - (I.below t + I.rest t)| = I.rest t := by
    rw [abs_of_nonpos (by linarith)]
    ring
  have hsecond : |((I.below t + 1 : ℕ) : ℚ) - (I.below t + I.rest t)| = 1 - I.rest t := by
    push_cast
    rw [abs_of_nonneg (by linarith)]
    ring
  rw [hscale, hscale]
  refine mul_le_mul_of_nonneg_right ?_ (zpow_pos (by norm_num) t).le
  rw [pick?_eq] at hpick
  rcases Nat.lt_or_ge (I.below t) g with hlt | hge
  · have habove := holds_above hlow hhigh h hlt
    refine le_trans ?_ (hover hlt)
    split_ifs at hpick with hheld hnear <;> cases hpick
    · exact hsecond.le
    · have hless : I.rest t < 1 / 2 := not_le.1 fun hle => hnear ⟨habove, hle⟩
      rw [hfirst]
      linarith
    · exact hsecond.le
  · have hbelow := holds_below hlow hhigh h hge
    refine le_trans ?_ (hunder hge)
    rw [if_pos hbelow] at hpick
    split_ifs at hpick with hnear <;> cases hpick
    · rw [hsecond]
      linarith [hnear.2]
    · exact hfirst.le

end Grid

theorem exists_contains {s : ℤ}
    (h : I.low * 2 ^ I.exponent + 10 ^ s < (I.high : ℚ) * 2 ^ I.exponent) :
    ∃ g : ℕ, I.Contains (g * 10 ^ s) := by
  have hten : (0 : ℚ) < 10 ^ s := zpow_pos (by norm_num) s
  have hlow : (0 : ℚ) ≤ I.low * 2 ^ I.exponent := by positivity
  -- the first point of the grid above the lower end
  obtain ⟨g, hle, hlt⟩ : ∃ g : ℕ, (g : ℚ) * 10 ^ s ≤ I.low * 2 ^ I.exponent ∧
      I.low * 2 ^ I.exponent < ((g : ℚ) + 1) * 10 ^ s := by
    refine ⟨⌊(I.low : ℚ) * 2 ^ I.exponent / 10 ^ s⌋₊, ?_, ?_⟩
    · rw [← le_div_iff₀ hten]
      exact Nat.floor_le (div_nonneg hlow hten.le)
    · rw [← div_lt_iff₀ hten]
      exact Nat.lt_floor_add_one _
  have hhigh : ((g + 1 : ℕ) : ℚ) * 10 ^ s < I.high * 2 ^ I.exponent := by
    push_cast
    linarith
  refine ⟨g + 1, ?_⟩
  push_cast at hhigh ⊢
  unfold Contains
  split_ifs
  · exact ⟨hlt.le, hhigh.le⟩
  · exact ⟨hlt, hhigh⟩

theorem exists_search_eq_some {s : ℤ} {g : ℕ} (hg : I.pick? s = some g) {k : ℕ} {t : ℤ}
    (hle : s ≤ t) (hdeep : t < s + k) : ∃ x, I.search k t = some x ∧ s ≤ x.exponent := by
  induction k generalizing t with
  | zero => omega
  | succ k ih =>
    rw [search]
    cases hpick : I.pick? t with
    | some g' => exact ⟨_, rfl, hle⟩
    | none =>
      have hne : s ≠ t := by
        rintro rfl
        rw [hg] at hpick
        cases hpick
      exact ih (by omega) (by omega)

theorem middle_lt_topPlace (I : RoundingInterval) :
    (I.middle : ℚ) * 2 ^ I.exponent < 10 ^ I.topPlace := by
  have hdigits : I.middle <<< I.exponent.toNat < 10 ^ I.topPlace := by
    unfold topPlace natText
    rw [← Nat.length_toDigits_le_iff (by norm_num) Nat.length_toDigits_pos]
  have hshift : (I.middle : ℚ) * 2 ^ I.exponent ≤ (I.middle <<< I.exponent.toNat : ℕ) := by
    rw [Nat.shiftLeft_eq]
    push_cast
    rw [← zpow_natCast]
    gcongr
    · norm_num
    · omega
  exact hshift.trans_lt (by exact_mod_cast hdigits)

theorem le_topPlace (hhigh : I.high < 10 * I.middle) {s : ℤ} {g : ℕ} (hg : g ≠ 0)
    (h : I.Contains (g * 10 ^ s)) : s ≤ I.topPlace := by
  have hten : (0 : ℚ) < 10 ^ s := zpow_pos (by norm_num) s
  have hone : (1 : ℚ) ≤ g := by exact_mod_cast Nat.one_le_iff_ne_zero.2 hg
  have hupper : (g : ℚ) * 10 ^ s ≤ I.high * 2 ^ I.exponent := by
    unfold Contains at h
    split_ifs at h
    · exact h.2
    · exact h.2.le
  have hhigh : (I.high : ℚ) < 10 * I.middle := by exact_mod_cast hhigh
  have hlt : (10 : ℚ) ^ s < 10 ^ ((I.topPlace : ℤ) + 1) :=
    calc (10 : ℚ) ^ s ≤ g * 10 ^ s := le_mul_of_one_le_left hten.le hone
      _ ≤ I.high * 2 ^ I.exponent := hupper
      _ < 10 * I.middle * 2 ^ I.exponent := mul_lt_mul_of_pos_right hhigh (two_zpow_pos _)
      _ = 10 * (I.middle * 2 ^ I.exponent) := mul_assoc _ _ _
      _ < 10 * 10 ^ I.topPlace := by gcongr; exact I.middle_lt_topPlace
      _ = 10 ^ ((I.topPlace : ℤ) + 1) := by rw [zpow_add_one₀ (by norm_num), zpow_natCast, mul_comm]
  have := (zpow_lt_zpow_iff_right₀ (by norm_num)).1 hlt
  omega

end RoundingInterval

open RoundingInterval

section Shortest

variable {L : BinaryLayout} {rank : ℕ} {s : ℤ} {g : ℕ}

theorem pick?_shortest (hrank : rank ≠ 0) (hs : 0 ≤ s)
    (h : (ofRank L rank).Contains (g * 10 ^ s)) :
    (ofRank L rank).pick? (shortest L rank).exponent = some (shortest L rank).coefficient ∧
      s ≤ (shortest L rank).exponent := by
  have hten : (ofRank L rank).high < 10 * (ofRank L rank).middle := by
    have hm := Nat.one_le_iff_ne_zero.2 (BinaryLayout.magnitude_ne_zero (L := L) hrank)
    simp only [ofRank]
    omega
  have hg : g ≠ 0 := by
    rintro rfl
    have hstep := half_step_le_of_contains hrank h
    rw [Nat.cast_zero, zero_mul] at hstep
    exact absurd (two_zpow_pos _) (not_lt_of_ge hstep)
  obtain ⟨g', hpick⟩ := exists_pick?_eq_some (low_lt_middle hrank) (middle_lt_high L rank)
    (holds_iff_contains.2 h)
  obtain ⟨x, hsearch, hx⟩ := exists_search_eq_some hpick (le_topPlace hten hg h)
    (k := (ofRank L rank).topPlace + (ofRank L rank).exponent.natAbs + 1) (by omega)
  rw [shortest, if_neg hrank, RoundingInterval.shortest, hsearch]
  exact ⟨pick?_of_search_eq_some hsearch, hx⟩

/-- **No number in the rounding interval of a magnitude ends in more zeros** than the shortest
one. -/
theorem le_exponent_shortest (hrank : rank ≠ 0) (hs : 0 ≤ s)
    (h : (ofRank L rank).Contains (g * 10 ^ s)) : s ≤ (shortest L rank).exponent :=
  (pick?_shortest hrank hs h).2

/-- **Of those that end in as many zeros none is nearer to the magnitude.** -/
theorem abs_sub_shortest_le (hrank : rank ≠ 0) (hs : 0 ≤ s) (hle : (shortest L rank).exponent ≤ s)
    (h : (ofRank L rank).Contains (g * 10 ^ s)) :
    |(shortest L rank).value - (L.magnitude rank).1 * 2 ^ (L.magnitude rank).2| ≤
      |(g : ℚ) * 10 ^ s - (L.magnitude rank).1 * 2 ^ (L.magnitude rank).2| := by
  obtain ⟨hpick, hge⟩ := pick?_shortest hrank hs h
  obtain rfl : (shortest L rank).exponent = s := le_antisymm hle hge
  have hmiddle : ((ofRank L rank).middle : ℚ) * 2 ^ (ofRank L rank).exponent =
      (L.magnitude rank).1 * 2 ^ (L.magnitude rank).2 := by
    simp only [ofRank]
    rw [zpow_sub₀ two_ne_zero]
    push_cast
    ring
  rw [← hmiddle]
  exact abs_sub_middle_le_of_pick? (low_lt_middle hrank) (middle_lt_high L rank) hpick
    (holds_iff_contains.2 h)

/-- The shortest one ends in zeros where the magnitudes are far from each other. -/
theorem le_exponent_shortest_of_lt (hrank : rank ≠ 0) (hs : 0 ≤ s)
    (h : (10 : ℚ) ^ s < 3 * 2 ^ ((L.magnitude rank).2 - 2)) :
    s ≤ (shortest L rank).exponent := by
  have hm := Nat.one_le_iff_ne_zero.2 (BinaryLayout.magnitude_ne_zero (L := L) hrank)
  have hlength : (ofRank L rank).low + 3 ≤ (ofRank L rank).high := by
    simp only [ofRank]
    split_ifs <;> omega
  have hstep : 3 * (2 : ℚ) ^ (ofRank L rank).exponent ≤
      ((ofRank L rank).high - (ofRank L rank).low) * 2 ^ (ofRank L rank).exponent := by
    have hlength : ((ofRank L rank).low : ℚ) + 3 ≤ (ofRank L rank).high := by
      exact_mod_cast hlength
    exact mul_le_mul_of_nonneg_right (by linarith) (two_zpow_pos _).le
  have hexponent : (ofRank L rank).exponent = (L.magnitude rank).2 - 2 := rfl
  rw [← hexponent] at h
  obtain ⟨g, hg⟩ : ∃ g : ℕ, (ofRank L rank).Contains (g * 10 ^ s) :=
    exists_contains (by linarith)
  exact le_exponent_shortest hrank hs hg

end Shortest

end Keyset.Decimal
