import GraphCalc.Proofs.Number.Arithmetic

/-! # Signs, overflow and middles

What plotting needs to know of the operations on doubles. Main statements:

* `isFinite_of_isFinite_add`, `isFinite_of_isFinite_sub`, `isFinite_of_isFinite_mul`: a finite result
  has finite operands;
* `opposite_of_mul_neg`: a negative product has factors of opposite sign;
* `value_abs`: the absolute value of a double is exact;
* `middle_between`: the middle of an interval lies in it, unless its ends are so large that twice an
  end is beyond the doubles.
-/

namespace GraphCalc.Binary64
open Float.Model Float.Model.UnpackedFloat
set_option autoImplicit false

/-! ## Finite results -/

section Unpacked
variable {x y : UnpackedFloat}

theorem isFinite_of_add (h : (UnpackedFloat.add Format.binary64 x y).isFinite = true) :
    x.isFinite = true ∧ y.isFinite = true := by
  cases x <;> cases y <;> simp only [UnpackedFloat.add] at h <;>
    first | exact ⟨rfl, rfl⟩ | cases h | (split at h <;> cases h)

theorem isFinite_of_sub (h : (UnpackedFloat.sub Format.binary64 x y).isFinite = true) :
    x.isFinite = true ∧ y.isFinite = true := by
  cases x <;> cases y <;> simp only [UnpackedFloat.sub] at h <;>
    first | exact ⟨rfl, rfl⟩ | cases h | (split at h <;> cases h)

theorem isFinite_of_mul (h : (UnpackedFloat.mul Format.binary64 x y).isFinite = true) :
    x.isFinite = true ∧ y.isFinite = true := by
  cases x <;> cases y <;> simp only [UnpackedFloat.mul] at h <;>
    first | exact ⟨rfl, rfl⟩ | cases h

theorem isFinite_of_div (h : (UnpackedFloat.div Format.binary64 x y).isFinite = true) :
    x.isFinite = true := by
  cases x <;> cases y <;> simp only [UnpackedFloat.div] at h <;>
    first | rfl | cases h

end Unpacked

section Propagation
variable {v w : Float}

theorem Packs.isFinite {x : UnpackedFloat} (h : Packs v x) (hv : v.isFinite = true) :
    x.isFinite = true := by
  rw [isFinite_iff, magnitude] at hv
  cases x with
  | zero => rfl
  | finite => rfl
  | infinity s =>
    rw [h.toNat, pack_infinity_toNat, infinityBits] at hv
    cases s <;> simp only [signBits] at hv <;> omega
  | notANumber =>
    have hbits : v.toBits.toNat = infinityBits + 2 ^ 51 := by
      rw [h.toNat]
      rfl
    rw [hbits, infinityBits] at hv
    omega

theorem isFinite_of_isFinite_add (h : (v + w).isFinite = true) :
    v.isFinite = true ∧ w.isFinite = true :=
  have hpacks : Packs (v + w) (UnpackedFloat.add Format.binary64 _ _) := rfl
  isFinite_of_add (hpacks.isFinite h)

theorem isFinite_of_isFinite_sub (h : (v - w).isFinite = true) :
    v.isFinite = true ∧ w.isFinite = true :=
  have hpacks : Packs (v - w) (UnpackedFloat.sub Format.binary64 _ _) := rfl
  isFinite_of_sub (hpacks.isFinite h)

theorem isFinite_of_isFinite_mul (h : (v * w).isFinite = true) :
    v.isFinite = true ∧ w.isFinite = true :=
  have hpacks : Packs (v * w) (UnpackedFloat.mul Format.binary64 _ _) := rfl
  isFinite_of_mul (hpacks.isFinite h)

theorem isFinite_of_isFinite_div (h : (v / w).isFinite = true) : v.isFinite = true :=
  have hpacks : Packs (v / w) (UnpackedFloat.div Format.binary64 _ _) := rfl
  isFinite_of_div (hpacks.isFinite h)

theorem isFinite_of_between {lo hi : Float} (hlo : lo.isFinite = true) (hhi : hi.isFinite = true)
    (h : lo ≤ v) (h' : v ≤ hi) : v.isFinite = true := by
  rw [isFinite_iff_rank] at *
  rw [le_iff] at h h'
  omega

end Propagation

/-! ## Signs -/

section Signs
variable {v w : Float}

theorem rank_nonneg_iff (h : v.isFinite = true) : 0 ≤ rank v ↔ 0 ≤ value v := by
  refine ⟨fun hrank => ?_, fun hvalue => ?_⟩
  · rw [← value_zero]
    exact value_le_value (by decide) h hrank
  · rw [← nearestRank_value h, ← nearestRank_zero]
    exact nearestRank_mono hvalue

theorem opposite_of_mul_neg (hv : v.isFinite = true) (hw : w.isFinite = true)
    (h : rank (v * w) < 0) : (rank v < 0 ∧ 0 < rank w) ∨ (0 < rank v ∧ rank w < 0) := by
  have hmul : value v * value w < 0 := by
    by_contra hge
    have hmono := nearestRank_mono (not_lt.mp hge)
    rw [← (isNearest_mul hv hw).rank, nearestRank_zero] at hmono
    omega
  have hpos : ∀ {u : Float}, u.isFinite = true → 0 < value u → 0 < rank u := fun hu hlt => by
    refine lt_of_le_of_ne ((rank_nonneg_iff hu).mpr hlt.le) fun h0 => hlt.ne' ?_
    exact value_of_magnitude_zero (rank_eq_zero_iff.mp h0.symm)
  have hneg : ∀ {u : Float}, u.isFinite = true → value u < 0 → rank u < 0 := fun hu hlt => by
    by_contra hge
    exact absurd ((rank_nonneg_iff hu).mp (not_lt.mp hge)) (not_le.mpr hlt)
  rcases mul_neg_iff.mp hmul with ⟨h1, h2⟩ | ⟨h1, h2⟩
  · exact .inr ⟨hpos hv h1, hneg hw h2⟩
  · exact .inl ⟨hneg hv h1, hpos hw h2⟩

end Signs

/-! ## Middles -/

section Middle
variable {v w : Float}

theorem Canonical.eq_of_fieldBits_eq {m n : ℕ} {e f : ℤ} (h : Canonical m e) (h' : Canonical n f)
    (heq : fieldBits m e = fieldBits n f) : m = n ∧ e = f := by
  have hcompare := h.compare_eq h'
  rw [heq, compare_eq_iff_eq.mpr rfl] at hcompare
  obtain ⟨hexponent, hmantissa⟩ := Ordering.then_eq_eq.mp hcompare
  exact ⟨compare_eq_iff_eq.mp hmantissa, compare_eq_iff_eq.mp hexponent⟩

/-- No rounding takes place where the exact result is a double. -/
theorem value_eq_of_isNearest {s : Sign} {m : ℕ} {e : ℤ} (hc : Canonical m e)
    (h : IsNearest v (unit s * (m * 2 ^ e))) : value v = unit s * (m * 2 ^ e) := by
  have hrank : rank v = s.apply (fieldBits m e) := by
    rw [h.rank, nearestRank_unit s (by positivity), nearestBits_canonical hc]
  have hpos := hc.fieldBits_pos
  have hlt := hc.lt_infinityBits
  have hmag : magnitude v = fieldBits m e := by
    rw [← natAbs_rank, hrank]
    cases s <;> simp [Sign.apply]
  have hsign : signOf v.toBits.toNat = s := by
    rw [rank, hmag] at hrank
    generalize signOf v.toBits.toNat = t at hrank
    cases s <;> cases t <;> first | rfl | (simp only [Sign.apply] at hrank; omega)
  rcases unpack_forms v with ⟨h0, -⟩ | ⟨n, f, hn, hc', h0, hu⟩ | ⟨h0, -⟩ | ⟨h0, -⟩
  · omega
  · obtain ⟨rfl, rfl⟩ := hc'.eq_of_fieldBits_eq hc (h0.symm.trans hmag)
    rw [value, hu, hsign, formValue]
  · omega
  · omega

theorem rank_abs (h : v.isNaN = false) : rank v.abs = magnitude v :=
  (rank_of_toNat (s := .positive) ((toBits_abs h).trans (Nat.zero_add _).symm) (magnitude_le h)).2

theorem abs_unit (s : Sign) : |unit s| = 1 := by
  cases s <;> simp [unit]

theorem value_abs (h : v.isFinite = true) : value v.abs = |value v| := by
  have hnan := isNaN_of_isFinite h
  rw [isFinite_iff] at h
  rcases unpack_forms v with ⟨h0, -⟩ | ⟨m, e, hpos, hc, h0, hu⟩ | ⟨h0, -⟩ | ⟨h0, -⟩
  · rw [value_of_magnitude_zero h0, abs_zero]
    exact value_of_magnitude_zero ((magnitude_abs hnan).trans h0)
  · have hnonneg : (0 : ℚ) ≤ m * 2 ^ e := by positivity
    have hnear : IsNearest v.abs (unit .positive * (m * 2 ^ e)) := by
      refine ⟨isNaN_abs hnan, ?_⟩
      rw [rank_abs hnan, h0, nearestRank_unit _ hnonneg, nearestBits_canonical hc]
      rfl
    rw [value_eq_of_isNearest hc hnear, value, hu, formValue, abs_mul, abs_unit, one_mul,
      abs_of_nonneg hnonneg, unit, one_mul]
  · omega
  · omega

/-- Twice a double is exact, unless it is beyond the doubles. -/
theorem value_add_self (h : (v + v).isFinite = true) : value (v + v) = 2 * value v := by
  have hv := (isFinite_of_isFinite_add h).1
  have hnear := isNearest_add hv hv
  rw [← two_mul] at hnear
  rcases finite_forms hv with ⟨s, hu⟩ | ⟨s, m, e, hpos, hc, hu⟩
  · have hzero : value v = 0 := value_of_unpack_zero hu
    rw [hzero, mul_zero] at hnear ⊢
    exact value_of_magnitude_zero (rank_eq_zero_iff.mp hnear.rank)
  have hvalue : value v = unit s * (m * 2 ^ e) := by rw [value, hu, formValue]
  -- twice a number below the full mantissas has the same exponent, twice another the next one
  rcases lt_or_ge m (2 ^ 52) with hsub | hnorm
  · have hc' : Canonical (2 * m) e := ⟨by omega, by omega, hc.least, hc.greatest, by
      have := hc.full
      omega⟩
    have htwice : 2 * value v = unit s * ((2 * m : ℕ) * 2 ^ e) := by
      rw [hvalue]
      push_cast
      ring
    rw [htwice] at hnear ⊢
    exact value_eq_of_isNearest hc' hnear
  · have htwice : 2 * value v = unit s * (m * 2 ^ (e + 1)) := by
      rw [hvalue, zpow_add₀ (by norm_num), zpow_one]
      ring
    have hrange : e + 1 ≤ 971 := by
      by_contra hlarge
      have hlog : 52 ≤ m.log2 := (Nat.le_log2 hpos.ne').mpr hnorm
      have hinf : nearestBits (m * 2 ^ (e + 1)) = infinityBits :=
        nearestBits_of_large (by positivity) (by rw [log_mantissa hpos]; omega)
      rw [isFinite_iff_rank, hnear.rank, htwice, nearestRank_unit s (by positivity), hinf] at h
      cases s <;> simp [Sign.apply] at h
    have hc' : Canonical m (e + 1) :=
      ⟨hpos, hc.lt, le_add_of_le_of_nonneg hc.least (by decide), hrange, .inl hnorm⟩
    rw [htwice] at hnear ⊢
    exact value_eq_of_isNearest hc' hnear

/-- Twice a double is finite, if this holds of a smaller and a larger one. -/
theorem isFinite_add_self_of_between {lo hi : Float} (hlo : (lo + lo).isFinite = true)
    (hhi : (hi + hi).isFinite = true) (h : lo ≤ v) (h' : v ≤ hi) : (v + v).isFinite = true := by
  have hlo' := (isFinite_of_isFinite_add hlo).1
  have hhi' := (isFinite_of_isFinite_add hhi).1
  have hv := isFinite_of_between hlo' hhi' h h'
  have hle := value_le_value hlo' hv (le_iff.mp h).2.2
  have hle' := value_le_value hv hhi' (le_iff.mp h').2.2
  exact isFinite_of_between hlo hhi
    ((isNearest_add hlo' hlo').le (isNearest_add hv hv) (by linarith))
    ((isNearest_add hv hv).le (isNearest_add hhi' hhi') (by linarith))

theorem value_two : value (Float.ofInt 2) = 2 := by
  have hu : (Float.ofInt 2).toModel.unpack = .finite .positive (2 ^ 52) (-51) (by decide) := by rfl
  rw [value, hu, formValue, unit]
  norm_num

theorem isNearest_half (h : v.isFinite = true) : IsNearest (v / Float.ofInt 2) (value v / 2) := by
  have hnear := isNearest_div h (w := Float.ofInt 2) (by decide) (by rw [value_two]; norm_num)
  rwa [value_two] at hnear

theorem middle_between (hv : (v + v).isFinite = true) (hw : (w + w).isFinite = true) (h : v ≤ w) :
    v ≤ (v + w) / Float.ofInt 2 ∧ (v + w) / Float.ofInt 2 ≤ w := by
  have hv' := (isFinite_of_isFinite_add hv).1
  have hw' := (isFinite_of_isFinite_add hw).1
  have hle : value v ≤ value w := value_le_value hv' hw' (le_iff.mp h).2.2
  have hlower : v + v ≤ v + w :=
    (isNearest_add hv' hv').le (isNearest_add hv' hw') (by linarith)
  have hupper : v + w ≤ w + w :=
    (isNearest_add hv' hw').le (isNearest_add hw' hw') (by linarith)
  have hsum := isFinite_of_between hv hw hlower hupper
  have hlower' := value_le_value hv hsum (le_iff.mp hlower).2.2
  have hupper' := value_le_value hsum hw (le_iff.mp hupper).2.2
  rw [value_add_self hv] at hlower'
  rw [value_add_self hw] at hupper'
  have hhalf := isNearest_half hsum
  exact ⟨(isNearest_value hv').le hhalf (by linarith), hhalf.le (isNearest_value hw') (by linarith)⟩

end Middle
end GraphCalc.Binary64
