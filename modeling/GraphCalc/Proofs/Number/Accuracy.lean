import GraphCalc.Proofs.Number.Underflow

/-! # The error of rounding

A nearest double is off by half a unit of its last place at most. That is a small part of the number
itself, or, where doubles are as dense as they get, half the least positive double. Main statements:

* `value_of_isNearest`: a nearest double stands for a whole number of last places;
* `abs_value_sub_le`: how far a nearest double can be off.
-/

namespace GraphCalc.Binary64
open Float.Model.UnpackedFloat
set_option autoImplicit false

variable {v : Float} {q : ℚ} {s : Sign} {n d : ℕ}

/-! ## Last places -/

theorem roundQuotient_bounds (n : ℕ) (hd : 0 < d) :
    2 * (roundQuotient n d * d) ≤ 2 * n + d ∧ 2 * n ≤ 2 * (roundQuotient n d * d) + d := by
  have hdiv := Nat.div_add_mod' n d
  have hmod := Nat.mod_lt n hd
  have hnext : (n / d + 1) * d = n / d * d + d := Nat.succ_mul _ _
  unfold roundQuotient
  dsimp only
  generalize n % d = r at *
  split_ifs <;> omega

theorem abs_roundQuotient_sub_le (n : ℕ) (hd : 0 < d) :
    |(roundQuotient n d : ℚ) - n / d| ≤ 1 / 2 := by
  have hpos : (0 : ℚ) < d := by exact_mod_cast hd
  obtain ⟨hupper, hlower⟩ := roundQuotient_bounds n hd
  have hupper' : 2 * ((roundQuotient n d : ℚ) * d) ≤ 2 * n + d := by exact_mod_cast hupper
  have hlower' : 2 * (n : ℚ) ≤ 2 * (roundQuotient n d * d) + d := by exact_mod_cast hlower
  rw [sub_div' hpos.ne', abs_div, abs_of_pos hpos, div_le_iff₀ hpos, abs_le]
  constructor <;> linarith

/-- A double whose bits are those of a mantissa and an exponent stands for their number. -/
theorem value_of_nearestBits {m : ℕ} {e : ℤ} (hc : Canonical m e) (hq : 0 < q)
    (h : IsNearest v (unit s * q)) (hbits : nearestBits q = fieldBits m e) :
    value v = unit s * (m * 2 ^ e) := by
  refine value_eq_of_isNearest hc ⟨h.isNaN, ?_⟩
  rw [h.rank, nearestRank_unit s hq.le, hbits, nearestRank_unit s (by positivity),
    nearestBits_canonical hc]

theorem value_of_isNearest (hq : 0 < q) (hd : 0 < d) (hcount : q / 2 ^ placeOf q = n / d)
    (h : IsNearest v (unit s * q)) (hv : v.isFinite = true) :
    value v = unit s * (roundQuotient n d * 2 ^ placeOf q) := by
  have hbits := nearestBits_eq hq hd hcount
  have hlast := roundQuotient_le hd hcount
  have hfull := le_roundQuotient_of_full hq hd hcount
  have hleast : -1074 ≤ placeOf q := le_max_left _ _
  have hfinite : nearestBits q < infinityBits := by
    rw [isFinite_iff_rank, h.rank, nearestRank_unit s hq.le] at hv
    cases s <;> simpa [Sign.apply] using hv
  generalize placeOf q = e at *
  generalize roundQuotient n d = m at *
  unfold infinityBits at hbits hfinite
  rcases Nat.eq_zero_or_pos m with rfl | hpos
  · have hzero : rank v = 0 := by
      rw [h.rank, nearestRank_unit s hq.le, show nearestBits q = 0 by omega]
      cases s <;> rfl
    rw [value_of_magnitude_zero (rank_eq_zero_iff.mp hzero), Nat.cast_zero, zero_mul, mul_zero]
  rcases hlast.lt_or_eq with hlt | rfl
  · have hc : Canonical m e := ⟨hpos, hlt, hleast, by omega, by omega⟩
    refine value_of_nearestBits hc hq h ?_
    rw [fieldBits]
    omega
  -- a count that has become a power of two is the least one in the next place
  · have hc : Canonical (2 ^ 52) (e + 1) := ⟨by decide, by decide, by omega, by omega, .inl le_rfl⟩
    have hsame : ((2 ^ 53 : ℕ) : ℚ) * 2 ^ e = (2 ^ 52 : ℕ) * 2 ^ (e + 1) := by
      rw [zpow_add_one₀ (by norm_num)]
      push_cast
      ring
    rw [hsame]
    refine value_of_nearestBits hc hq h ?_
    rw [fieldBits]
    omega

/-! ## Errors -/

/-- The part of a number by which rounding can change it. -/
def unitRoundoff : ℚ := 2 ^ (-53 : ℤ)

theorem unitRoundoff_pos : 0 < unitRoundoff := by
  unfold unitRoundoff
  positivity

theorem half_place_le (hq : 0 < q) : 2 ^ placeOf q / 2 ≤ unitRoundoff * q + halfLeast := by
  rw [div_eq_mul_inv, ← zpow_sub_one₀ (by norm_num)]
  rcases max_choice (-1074) (Int.log 2 q - 52) with h | h
  · rw [placeOf, h]
    exact le_add_of_nonneg_left (mul_pos unitRoundoff_pos hq).le
  · have hlog : (2 : ℚ) ^ Int.log 2 q ≤ q := by
      exact_mod_cast Int.zpow_log_le_self (b := 2) (by decide) hq
    have hsplit : (2 : ℚ) ^ (Int.log 2 q - 52 - 1) = unitRoundoff * 2 ^ Int.log 2 q := by
      rw [unitRoundoff, ← zpow_add₀ (by norm_num)]
      congr 1
      ring
    rw [placeOf, h, hsplit]
    exact le_add_of_le_of_nonneg (mul_le_mul_of_nonneg_left hlog unitRoundoff_pos.le)
      halfLeast_pos.le

theorem exists_unit_mul_abs (q : ℚ) : ∃ s : Sign, q = unit s * |q| := by
  rcases le_total 0 q with h | h
  · exact ⟨.positive, by rw [unit, one_mul, abs_of_nonneg h]⟩
  · exact ⟨.negative, by rw [unit, neg_one_mul, abs_of_nonpos h, neg_neg]⟩

theorem abs_value_sub_le (h : IsNearest v q) (hv : v.isFinite = true) :
    |value v - q| ≤ unitRoundoff * |q| + halfLeast := by
  rcases eq_or_ne q 0 with rfl | hne
  · have hzero : value v = 0 := value_of_magnitude_zero (rank_eq_zero_iff.mp h.rank)
    rw [hzero, sub_zero, abs_zero, mul_zero, zero_add]
    exact halfLeast_pos.le
  obtain ⟨s, hs⟩ := exists_unit_mul_abs q
  have hpos : 0 < |q| := abs_pos.mpr hne
  obtain ⟨n, d, hd, hcount⟩ := exists_counted hpos
  rw [hs] at h
  have hplace : (0 : ℚ) < 2 ^ placeOf |q| := by positivity
  calc |value v - q|
      = |unit s * ((roundQuotient n d - n / d) * 2 ^ placeOf |q|)| := by
        rw [value_of_isNearest hpos hd hcount h hv, ← hcount, sub_mul, div_mul_cancel₀ _ hplace.ne',
          mul_sub, ← hs]
    _ = |(roundQuotient n d : ℚ) - n / d| * 2 ^ placeOf |q| := by
        rw [abs_mul, abs_unit, one_mul, abs_mul, abs_of_pos hplace]
    _ ≤ 1 / 2 * 2 ^ placeOf |q| :=
        mul_le_mul_of_nonneg_right (abs_roundQuotient_sub_le n hd) hplace.le
    _ = 2 ^ placeOf |q| / 2 := one_div_mul_eq_div _ _
    _ ≤ unitRoundoff * |q| + halfLeast := half_place_le hpos

end GraphCalc.Binary64
