import GraphCalc.Proofs.Number.Middle

/-! # Products that vanish

The product of two doubles is rounded, and what is at most half the least positive double rounds to zero:
in the middle between zero and that double, zero is the even one. So a product may vanish although no
factor does. Main notions and statements:

* `halfLeast`: half the least positive double;
* `nearestBits_eq_zero_iff`: what is rounded to zero;
* `mul_neg_iff`: when a product is a negative double.
-/

namespace GraphCalc.Binary64
set_option autoImplicit false

/-- Half the least positive double. -/
def halfLeast : ℚ := 2 ^ (-1075 : ℤ)

theorem halfLeast_pos : 0 < halfLeast := by
  unfold halfLeast
  positivity

/-! ## Rounding to zero -/

theorem roundQuotient_eq_zero_iff {n d : ℕ} (hd : 0 < d) : roundQuotient n d = 0 ↔ 2 * n ≤ d := by
  rcases lt_or_ge n d with hlt | hge
  · unfold roundQuotient
    rw [Nat.div_eq_of_lt hlt, Nat.mod_eq_of_lt hlt]
    simp only [Nat.zero_mod, if_true]
    split_ifs with hbelow habove
    · exact iff_of_true rfl hbelow.le
    · exact iff_of_false (by decide) (by omega)
    · exact iff_of_true rfl (by omega)
  · have hone : 1 ≤ n / d := (Nat.one_le_div_iff hd).mpr hge
    have hle := le_roundQuotient n d
    omega

theorem nearestBits_eq_zero_iff {q : ℚ} (hq : 0 < q) : nearestBits q = 0 ↔ q ≤ halfLeast := by
  obtain ⟨n, d, hd, hcount⟩ := exists_counted hq
  have hleast : -1074 ≤ placeOf q := le_max_left _ _
  have hinf : 0 < infinityBits := by decide
  rw [nearestBits_eq hq hd hcount]
  rcases hleast.lt_or_eq with hlt | heq
  -- above the least place no rounded count is zero, and no number is so small
  · have hfull := le_roundQuotient_of_full hq hd hcount hlt
    have hlog : -1075 ≤ Int.log 2 q - 1 := by
      unfold placeOf at hlt
      omega
    have hlarge : halfLeast < q :=
      calc halfLeast ≤ 2 ^ (Int.log 2 q - 1) := zpow_le_zpow_right₀ (by norm_num) hlog
        _ < 2 ^ Int.log 2 q := zpow_lt_zpow_right₀ (by norm_num) (by omega)
        _ ≤ q := by exact_mod_cast Int.zpow_log_le_self (b := 2) (by decide) hq
    exact iff_of_false (by omega) (not_le.mpr hlarge)
  · have hzero : min infinityBits ((placeOf q + 1074).toNat * 2 ^ 52 + roundQuotient n d) = 0 ↔
        roundQuotient n d = 0 := by
      rw [← heq]
      omega
    have hhalf : halfLeast = 2 ^ (-1074 : ℤ) / 2 := by
      rw [halfLeast, show (-1075 : ℤ) = -1074 - 1 by norm_num, zpow_sub_one₀ (by norm_num),
        div_eq_mul_inv]
    rw [hzero, roundQuotient_eq_zero_iff hd, hhalf, le_div_iff₀ (by norm_num)]
    rw [← heq, div_eq_iff (by positivity)] at hcount
    have hpos : (0 : ℚ) < d := by exact_mod_cast hd
    rw [hcount, div_mul_eq_mul_div, div_mul_eq_mul_div, div_le_iff₀ hpos, mul_comm ((2 : ℚ) ^ _),
      mul_right_comm, mul_le_mul_iff_left₀ (by positivity), mul_comm]
    exact_mod_cast Iff.rfl

theorem nearestRank_neg_iff {q : ℚ} : nearestRank q < 0 ↔ q < -halfLeast := by
  rcases lt_or_ge q 0 with hneg | hnonneg
  · have hiff := nearestBits_eq_zero_iff (neg_pos.mpr hneg)
    rw [nearestBits_neg] at hiff
    rw [nearestRank, if_pos hneg, ← not_le, lt_neg, ← not_le, ← hiff]
    omega
  · rw [nearestRank_of_nonneg hnonneg]
    exact iff_of_false (by omega) (not_lt.mpr ((neg_neg_of_pos halfLeast_pos).le.trans hnonneg))

/-! ## Products -/

section Products
variable {v w : Float}

theorem mul_neg_iff (hv : v.isFinite = true) (hw : w.isFinite = true) :
    v * w < 0.0 ↔ value v * value w < -halfLeast := by
  have hmul := isNearest_mul hv hw
  have hzero : rank 0.0 = 0 := by decide
  rw [lt_iff, hzero, hmul.rank, nearestRank_neg_iff, and_iff_right hmul.isNaN,
    and_iff_right (by decide)]

/-- The product of two doubles of opposite sign is negative if and only if it does not vanish. -/
theorem mul_neg_iff_of_opposite (hv : v.isFinite = true) (hw : w.isFinite = true)
    (hsigns : (v < 0.0 ∧ 0.0 < w) ∨ (0.0 < v ∧ w < 0.0)) :
    v * w < 0.0 ↔ halfLeast < |value v| * |value w| := by
  have hzero : rank 0.0 = 0 := by decide
  have hproduct : value v * value w ≤ 0 := by
    simp only [lt_iff, hzero] at hsigns
    rcases hsigns with ⟨⟨-, -, hneg⟩, -, -, hpos⟩ | ⟨⟨-, -, hpos⟩, -, -, hneg⟩
    · exact mul_nonpos_of_nonpos_of_nonneg
        (not_le.mp fun h => hneg.not_ge ((rank_nonneg_iff hv).mpr h)).le
        ((rank_nonneg_iff hw).mp hpos.le)
    · exact mul_nonpos_of_nonneg_of_nonpos ((rank_nonneg_iff hv).mp hpos.le)
        (not_le.mp fun h => hneg.not_ge ((rank_nonneg_iff hw).mpr h)).le
  rw [mul_neg_iff hv hw, ← abs_mul, abs_of_nonpos hproduct, lt_neg]

end Products
end GraphCalc.Binary64
