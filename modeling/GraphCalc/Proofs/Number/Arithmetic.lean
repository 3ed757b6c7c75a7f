import GraphCalc.Number.Scalar
import GraphCalc.Proofs.Number.Residue

/-! # Exact arithmetic behind doubles

Sums, differences, products and quotients of finite doubles are the doubles nearest to the exact
results. As rounding keeps the order, so do the operations. Main notions and statements:

* `IsNearest`: a double is the nearest one to a number;
* `isNearest_add`, `isNearest_sub`, `isNearest_mul`, `isNearest_div`, `isNearest_ofNat`;
* `IsNearest.le`: nearest doubles are ordered as the numbers are;
* rationals as scalars: on them an algorithm for scalars does exactly what it does on doubles up to
  rounding.
-/

namespace GraphCalc.Binary64
open Float.Model Float.Model.UnpackedFloat
set_option autoImplicit false

/-! ## Nearest doubles -/

/-- A double is the nearest one to a number. -/
structure IsNearest (v : Float) (q : ℚ) : Prop where
  isNaN : v.isNaN = false
  rank : rank v = nearestRank q

section Nearest
variable {v w : Float} {p q : ℚ}

theorem IsNearest.le (hv : IsNearest v p) (hw : IsNearest w q) (h : p ≤ q) : v ≤ w := by
  rw [le_iff, hv.rank, hw.rank]
  exact ⟨hv.isNaN, hw.isNaN, nearestRank_mono h⟩

theorem IsNearest.value_le (hv : IsNearest v p) (hw : IsNearest w q) (hfinite : v.isFinite = true)
    (hfinite' : w.isFinite = true) (h : p ≤ q) : value v ≤ value w :=
  value_le_value hfinite hfinite' (le_iff.mp (hv.le hw h)).2.2

theorem isNearest_zero : IsNearest 0.0 0 := ⟨by decide, by decide⟩

theorem value_zero : value 0.0 = 0 := value_of_magnitude_zero (by decide)

theorem isNearest_value (h : v.isFinite = true) : IsNearest v (value v) :=
  ⟨isNaN_of_isFinite h, (nearestRank_value h).symm⟩

/-- A double is read off its bits. -/
theorem rank_of_toNat {s : Sign} {n : ℕ} (h : v.toBits.toNat = signBits s + n)
    (hn : n ≤ infinityBits) : v.isNaN = false ∧ rank v = s.apply n := by
  unfold infinityBits at hn
  have hmag : magnitude v = n := by
    rw [magnitude, h]
    cases s <;> simp only [signBits] <;> omega
  have hsign : signOf v.toBits.toNat = s := by
    rw [h]
    cases s
    · exact if_neg (by simp only [signBits]; omega)
    · exact if_pos (by simp only [signBits]; omega)
  refine ⟨?_, by rw [rank, hmag, hsign]⟩
  rw [Bool.eq_false_iff, ne_eq, isNaN_iff, hmag, infinityBits]
  omega

theorem isNearest_of_toNat {s : Sign} (hq : 0 ≤ q)
    (h : v.toBits.toNat = signBits s + nearestBits q) : IsNearest v (unit s * q) := by
  obtain ⟨hnan, hrank⟩ := rank_of_toNat h (nearestBits_le q)
  exact ⟨hnan, by rw [hrank, nearestRank_unit s hq]⟩

end Nearest

/-! ## Rounding of forms -/

section Forms
variable {v : Float}

/-- The double into which a form is packed. -/
def Packs (v : Float) (x : UnpackedFloat) : Prop :=
  v.toBits.toBitVec = UnpackedFloat.pack Format.binary64 x

theorem Packs.toNat {x : UnpackedFloat} (h : Packs v x) :
    v.toBits.toNat = (UnpackedFloat.pack Format.binary64 x : BitVec 64).toNat :=
  congrArg BitVec.toNat h

theorem Packs.zero {s : Sign} (h : Packs v (.zero s)) : IsNearest v 0 := by
  obtain ⟨hnan, hrank⟩ := rank_of_toNat (n := 0) (h.toNat.trans (pack_zero_toNat s)) (Nat.zero_le _)
  refine ⟨hnan, ?_⟩
  rw [hrank, nearestRank_zero]
  cases s <;> rfl

theorem Packs.finite {s : Sign} {m : ℕ} {e : ℤ} {hpos : 0 < m} (hc : Canonical m e)
    (h : Packs v (.finite s m e hpos)) : IsNearest v (formValue (.finite s m e hpos)) := by
  have hlt : (e + 1074).toNat * 2 ^ 52 + m < infinityBits := hc.lt_infinityBits
  refine isNearest_of_toNat (by positivity) ?_
  rw [h.toNat, pack_finite_toNat s hpos hc.lt hc.least hc.full, nearestBits_canonical hc,
    min_eq_right hlt.le]
  rfl

theorem Packs.unpack {w : Float} (hw : w.isNaN = false) (h : Packs v w.toModel.unpack) : v = w := by
  have hbits : v.toBits.toBitVec = w.toBits.toBitVec := h.trans (pack_unpack (magnitude_le hw))
  exact toBits_injective (UInt64.toBitVec_inj.mp hbits)

theorem Packs.roundWithAccuracy {s : Sign} {m n d : ℕ} {e : ℤ} {accuracy : Accuracy} {q : ℚ}
    (h : Packs v (roundWithAccuracy Format.binary64 s m e accuracy)) (hd : 0 < d) (hq : 0 < q)
    (hresidue : Residue (.ofMantissaAndAccuracy m accuracy) n d) (hvalue : q = n / d * 2 ^ e)
    (he : e ≤ placeOf q) : IsNearest v (unit s * q) :=
  isNearest_of_toNat hq.le (h.toNat.trans (pack_roundWithAccuracy s hd hq hresidue hvalue he))

/-- A mantissa shifted against its exponent stands for the same number. -/
theorem shifted_value (m k : ℕ) (e : ℤ) : ((m <<< k : ℕ) : ℚ) * 2 ^ (e - k) = m * 2 ^ e := by
  rw [Nat.shiftLeft_eq, zpow_sub₀ (by norm_num), zpow_natCast]
  push_cast
  field_simp

theorem log_mantissa {m : ℕ} (hm : 0 < m) (e : ℤ) : Int.log 2 (m * 2 ^ e : ℚ) = m.log2 + e :=
  log_scaled hm le_rfl (lt_add_one _) e

theorem Packs.round {s : Sign} {m : ℕ} {e : ℤ} (hm : 0 < m)
    (h : Packs v (UnpackedFloat.round Format.binary64 s m e)) :
    IsNearest v (unit s * (m * 2 ^ e)) := by
  have hq : (0 : ℚ) < m * 2 ^ e := by positivity
  have htarget : Format.binary64.targetExponent (totalExponent m e) = placeOf (m * 2 ^ e) := by
    rw [targetExponent_eq, totalExponent, placeOf, log_mantissa hm]
    omega
  refine Packs.roundWithAccuracy h Nat.one_pos hq (residue_exact _) ?_ ?_
  · rw [Nat.cast_one, div_one]
    exact (shifted_value _ _ _).symm
  · show e - ((e - Format.binary64.targetExponent (totalExponent m e)).toNat : ℤ) ≤ _
    omega

theorem Packs.normalize {m : ℤ} {e : ℤ}
    (h : Packs v (UnpackedFloat.normalize Format.binary64 m e .positive)) :
    IsNearest v (m * 2 ^ e) := by
  rcases lt_trichotomy m 0 with hneg | rfl | hpos
  · rw [UnpackedFloat.normalize, compare_lt_iff_lt.mpr hneg] at h
    have hcast : ((-m).toNat : ℚ) = -m := by exact_mod_cast Int.toNat_of_nonneg (by omega)
    have hnear := h.round (by omega)
    rwa [hcast, unit, neg_one_mul, neg_mul, neg_neg] at hnear
  · rw [Int.cast_zero, zero_mul]
    exact Packs.zero h
  · rw [UnpackedFloat.normalize, compare_gt_iff_gt.mpr hpos] at h
    have hcast : (m.toNat : ℚ) = m := by exact_mod_cast Int.toNat_of_nonneg hpos.le
    have hnear := h.round (by omega)
    rwa [hcast, unit, one_mul] at hnear

end Forms

/-! ## Sums and differences -/

/-- A mantissa under its sign, shifted to a smaller exponent. -/
theorem aligned_value (s : Sign) (m : ℕ) {e target : ℤ} (h : target ≤ e) :
    ((s.apply (m <<< (e - target).toNat : ℕ) : ℤ) : ℚ) * 2 ^ target =
      unit s * (m * 2 ^ e) := by
  have hexponent : e - ((e - target).toNat : ℤ) = target := by omega
  have hvalue := shifted_value m (e - target).toNat e
  rw [hexponent] at hvalue
  rw [← hvalue]
  cases s with
  | positive => rw [Sign.apply, Int.cast_natCast, unit, one_mul]
  | negative => rw [Sign.apply, Int.cast_neg, Int.cast_natCast, unit, neg_mul, neg_one_mul]

theorem unit_neg (s : Sign) : unit (-s) = -unit s := by
  cases s
  · exact (neg_neg 1).symm
  · rfl

section Operations
variable {v w : Float}

theorem isNearest_add (hv : v.isFinite = true) (hw : w.isFinite = true) :
    IsNearest (v + w) (value v + value w) := by
  have h : Packs (v + w) (UnpackedFloat.add Format.binary64 v.toModel.unpack w.toModel.unpack) := rfl
  rcases finite_forms hv with ⟨s, hu⟩ | ⟨s, m, e, hpos, hc, hu⟩
  · have hzero : value v = 0 := value_of_unpack_zero hu
    rcases finite_forms hw with ⟨t, hu'⟩ | ⟨t, n, f, hpos', hc', hu'⟩
    · have hzero' : value w = 0 := value_of_unpack_zero hu'
      rw [hzero, hzero', add_zero]
      rw [hu, hu', UnpackedFloat.add] at h
      split at h
      · exact h.zero
      · exact h.zero
    · -- the other summand is returned as it is
      have hself : Packs (v + w) w.toModel.unpack := by
        rw [hu, hu'] at h
        rwa [hu']
      rw [hself.unpack (isNaN_of_isFinite hw), hzero, zero_add]
      exact isNearest_value hw
  · rcases finite_forms hw with ⟨t, hu'⟩ | ⟨t, n, f, hpos', hc', hu'⟩
    · have hzero : value w = 0 := value_of_unpack_zero hu'
      have hself : Packs (v + w) v.toModel.unpack := by
        rw [hu, hu'] at h
        rwa [hu]
      rw [hself.unpack (isNaN_of_isFinite hv), hzero, add_zero]
      exact isNearest_value hv
    · rw [hu, hu'] at h
      have hnear := Packs.normalize h
      rw [Int.cast_add, add_mul] at hnear
      rw [value, value, hu, hu', formValue, formValue, ← aligned_value s m (min_le_left e f),
        ← aligned_value t n (min_le_right e f)]
      exact hnear

theorem isNearest_sub (hv : v.isFinite = true) (hw : w.isFinite = true) :
    IsNearest (v - w) (value v - value w) := by
  have h : Packs (v - w) (UnpackedFloat.sub Format.binary64 v.toModel.unpack w.toModel.unpack) := rfl
  rcases finite_forms hv with ⟨s, hu⟩ | ⟨s, m, e, hpos, hc, hu⟩
  · have hzero : value v = 0 := value_of_unpack_zero hu
    rcases finite_forms hw with ⟨t, hu'⟩ | ⟨t, n, f, hpos', hc', hu'⟩
    · have hzero' : value w = 0 := value_of_unpack_zero hu'
      rw [hzero, hzero', sub_zero]
      rw [hu, hu', UnpackedFloat.sub] at h
      split at h
      · exact h.zero
      · exact h.zero
    · rw [hu, hu'] at h
      have hnear := Packs.finite hc' h
      rwa [hzero, zero_sub, value, hu', formValue, ← neg_mul, ← unit_neg]
  · rcases finite_forms hw with ⟨t, hu'⟩ | ⟨t, n, f, hpos', hc', hu'⟩
    · have hzero : value w = 0 := value_of_unpack_zero hu'
      have hself : Packs (v - w) v.toModel.unpack := by
        rw [hu, hu'] at h
        rwa [hu]
      rw [hself.unpack (isNaN_of_isFinite hv), hzero, sub_zero]
      exact isNearest_value hv
    · rw [hu, hu'] at h
      have hnear := Packs.normalize h
      rw [Int.cast_sub, sub_mul] at hnear
      rw [value, value, hu, hu', formValue, formValue, ← aligned_value s m (min_le_left e f),
        ← aligned_value t n (min_le_right e f)]
      exact hnear

/-! ## Products and quotients -/

theorem unit_mul (s t : Sign) : unit (s * t) = unit s * unit t := by
  cases s <;> cases t <;> simp only [unit] <;> norm_num

theorem unit_div (s t : Sign) : unit (s / t) = unit s / unit t := by
  cases s <;> cases t <;> simp only [unit] <;> norm_num <;> rfl

/-- The product of two mantissas has all bits of the place of the product. -/
theorem Canonical.add_le_placeOf {m n : ℕ} {e f : ℤ} (h : Canonical m e) (h' : Canonical n f) :
    e + f ≤ placeOf ((m * n : ℕ) * 2 ^ (e + f)) := by
  have hlog : m.log2 + n.log2 ≤ (m * n).log2 := by
    rw [Nat.le_log2 (Nat.mul_pos h.pos h'.pos).ne', pow_add]
    exact Nat.mul_le_mul (Nat.log2_self_le h.pos.ne') (Nat.log2_self_le h'.pos.ne')
  have hbits : ∀ {k : ℕ} {i : ℤ}, Canonical k i → 52 ≤ k.log2 ∨ i = -1074 := fun hk =>
    hk.full.imp_left (Nat.le_log2 hk.pos.ne').mpr
  unfold placeOf
  rw [log_mantissa (Nat.mul_pos h.pos h'.pos)]
  have h1 := hbits h
  have h2 := hbits h'
  omega

theorem isNearest_mul (hv : v.isFinite = true) (hw : w.isFinite = true) :
    IsNearest (v * w) (value v * value w) := by
  have h : Packs (v * w) (UnpackedFloat.mul Format.binary64 v.toModel.unpack w.toModel.unpack) := rfl
  rcases finite_forms hv with ⟨s, hu⟩ | ⟨s, m, e, hpos, hc, hu⟩
  · have hzero : value v = 0 := value_of_unpack_zero hu
    rw [hu] at h
    rw [hzero, zero_mul]
    rcases finite_forms hw with ⟨t, hu'⟩ | ⟨t, n, f, hpos', hc', hu'⟩
    · rw [hu'] at h
      exact Packs.zero h
    · rw [hu'] at h
      exact Packs.zero h
  · rcases finite_forms hw with ⟨t, hu'⟩ | ⟨t, n, f, hpos', hc', hu'⟩
    · have hzero : value w = 0 := value_of_unpack_zero hu'
      rw [hu, hu'] at h
      rw [hzero, mul_zero]
      exact Packs.zero h
    · rw [hu, hu'] at h
      have hq : (0 : ℚ) < (m * n : ℕ) * 2 ^ (e + f) := by positivity
      have hnear := Packs.roundWithAccuracy h Nat.one_pos hq (residue_exact _)
        (by rw [Nat.cast_one, div_one]) (hc.add_le_placeOf hc')
      rw [unit_mul, zpow_add₀ (by norm_num), Nat.cast_mul] at hnear
      rw [value, value, hu, hu', formValue, formValue]
      convert hnear using 1
      ring

/-- The exponent to which a quotient is computed, and the quotient. -/
theorem divCore_residue {m n : ℕ} {e f : ℤ} (hm : 0 < m) (hn : 0 < n) :
    ∃ (shift : ℕ) (target : ℤ), divCore Format.binary64 m e n f =
        ((m <<< shift) / n, target, accuracyOfFraction ((m <<< shift) % n) n) ∧
      (m / n * 2 ^ (e - f) : ℚ) = (m <<< shift : ℕ) / n * 2 ^ target ∧
      target ≤ placeOf (m / n * 2 ^ (e - f)) := by
  refine ⟨_, _, rfl, ?_, ?_⟩
  · set target := min (e - f) (Format.binary64.targetExponent (totalExponent m e - totalExponent n f))
    have hvalue := shifted_value m (e - f - target).toNat (e - f)
    have hexponent : e - f - ((e - f - target).toNat : ℤ) = target := by omega
    rw [hexponent] at hvalue
    rw [div_mul_eq_mul_div, ← hvalue, div_mul_eq_mul_div]
  · have hlog : (m.log2 : ℤ) - n.log2 - 1 + (e - f) ≤ Int.log 2 (m / n * 2 ^ (e - f) : ℚ) := by
      refine le_log (by positivity) ?_
      rw [zpow_add₀ (by norm_num)]
      exact mul_le_mul_of_nonneg_right (div_bounds hm hn).1.le (by positivity)
    rw [targetExponent_eq, totalExponent, totalExponent, placeOf]
    omega

theorem isNearest_div (hv : v.isFinite = true) (hw : w.isFinite = true) (hne : value w ≠ 0) :
    IsNearest (v / w) (value v / value w) := by
  have h : Packs (v / w) (UnpackedFloat.div Format.binary64 v.toModel.unpack w.toModel.unpack) := rfl
  obtain ⟨t, n, f, hpos', hc', hu'⟩ := (finite_forms hw).resolve_left fun ⟨t, hu'⟩ =>
    hne (value_of_unpack_zero hu')
  rcases finite_forms hv with ⟨s, hu⟩ | ⟨s, m, e, hpos, hc, hu⟩
  · have hzero : value v = 0 := value_of_unpack_zero hu
    rw [hu, hu'] at h
    rw [hzero, zero_div]
    exact Packs.zero h
  · obtain ⟨shift, target, hcore, hvalue, hle⟩ := @divCore_residue m n e f hpos hpos'
    rw [hu, hu', UnpackedFloat.div, hcore] at h
    have hq : (0 : ℚ) < m / n * 2 ^ (e - f) := by positivity
    have hnear := Packs.roundWithAccuracy h hpos' hq (residue_fraction _ hpos') hvalue hle
    rw [unit_div, zpow_sub₀ (by norm_num)] at hnear
    rw [value, value, hu, hu', formValue, formValue]
    convert hnear using 1
    field_simp

end Operations

/-! ## Naturals -/

theorem isFinite_iff_rank {v : Float} : v.isFinite = true ↔ (rank v).natAbs < infinityBits := by
  rw [isFinite_iff, natAbs_rank]

theorem nearestRank_two_pow_53 : nearestRank (2 ^ 53 : ℕ) < infinityBits := by
  have hc : Canonical (2 ^ 52) 1 := ⟨by decide, by decide, by decide, by decide, .inl le_rfl⟩
  have hq : ((2 ^ 53 : ℕ) : ℚ) = (2 ^ 52 : ℕ) * 2 ^ (1 : ℤ) := by norm_num
  rw [nearestRank_of_nonneg (by positivity), hq, nearestBits_canonical hc]
  exact_mod_cast hc.lt_infinityBits

theorem isNearest_one_mul {v : Float} (h : v.isFinite = true) :
    IsNearest (v * Float.ofBits 0x3FF0000000000000) (value v) := by
  have hone : value (Float.ofBits 0x3FF0000000000000) = 1 := by
    have hu : (Float.ofBits 0x3FF0000000000000).toModel.unpack =
        .finite .positive (2 ^ 52) (-52) (by decide) := by rfl
    rw [value, hu, formValue, unit]
    norm_num
  have hnear := isNearest_mul h (w := Float.ofBits 0x3FF0000000000000) (by decide)
  rwa [hone, mul_one] at hnear

/-- A natural of 53 bits at most is converted through a word. -/
theorem isNearest_toFloat {n : ℕ} (h : n < 2 ^ 53) :
    n.toUInt64.toFloat.isFinite = true ∧ IsNearest n.toUInt64.toFloat n := by
  have hnat : n.toUInt64.toNat = n := Nat.mod_eq_of_lt (by omega)
  have hpacks : Packs n.toUInt64.toFloat
      (UnpackedFloat.normalize Format.binary64 (n.toUInt64.toNat : ℤ) 0 .positive) := rfl
  have hnear := hpacks.normalize
  rw [hnat, zpow_zero, mul_one, Int.cast_natCast] at hnear
  refine ⟨?_, hnear⟩
  have hle := nearestRank_mono (Nat.cast_le.mpr h.le)
  have hlt := nearestRank_two_pow_53
  have hnonneg := nearestRank_of_nonneg (Nat.cast_nonneg n)
  rw [isFinite_iff_rank, hnear.rank]
  omega

/-- A larger one is rounded like a numeral without a fraction. -/
theorem isNearest_ofScientific {n : ℕ} (h : 0 < n) :
    IsNearest (Float.ofModel (Float.Model.ofScientific n (Int.ofNat 0))) n := by
  have hpacks : Packs (Float.ofModel (Float.Model.ofScientific n (Int.ofNat 0)))
      (UnpackedFloat.ofScientific Format.binary64 n 0) := rfl
  have hlimit : (0 : ℤ) ≤ 2 ^ Format.binary64.exponentBits := by decide
  rw [UnpackedFloat.ofScientific, dif_neg h.ne', if_neg (by decide), if_neg (by omega),
    if_pos le_rfl] at hpacks
  have hround : Packs (Float.ofModel (Float.Model.ofScientific n (Int.ofNat 0)))
      (roundWithAccuracy Format.binary64 .positive (n <<< 53 * 1) (-53 + 0) .exact) := hpacks
  rw [mul_one, add_zero] at hround
  have hq : (0 : ℚ) < n := by exact_mod_cast h
  have hlog : 0 ≤ Int.log 2 (n : ℚ) := le_log hq (by rw [zpow_zero]; exact_mod_cast h)
  have hshift := shifted_value n 53 0
  rw [zero_sub, zpow_zero, mul_one] at hshift
  have hnear := hround.roundWithAccuracy Nat.one_pos hq (residue_exact _)
    (by rw [Nat.cast_one, div_one]; exact hshift.symm) (by rw [placeOf]; omega)
  rwa [unit, one_mul] at hnear

theorem isNearest_ofNat (n : ℕ) : IsNearest (Float.ofNat n) n := by
  show IsNearest (Float.ofScientific n false 0) n
  unfold Float.ofScientific
  split
  · next hsmall =>
    obtain ⟨hfinite, hnear⟩ := isNearest_toFloat hsmall.1
    -- the power of ten is one
    have hsame := isNearest_one_mul hfinite
    refine ⟨hsame.isNaN, ?_⟩
    show rank (n.toUInt64.toFloat * Float.ofBits 0x3FF0000000000000) = _
    rw [hsame.rank, nearestRank_value hfinite, hnear.rank]
  · next hlarge => exact isNearest_ofScientific (by omega)

end GraphCalc.Binary64

namespace GraphCalc

/-! ## Exact scalars -/

/-- Every rational is finite, and they are compared as numbers. -/
instance : Scalar ℚ where
  ofInt n := n
  isFinite _ := true
  less a b := decide (a < b)
  equal a b := decide (a = b)
  abs a := |a|

namespace Scalar
variable (a b : ℚ)

@[simp] theorem ofInt_rat (n : ℤ) : (ofInt n : ℚ) = n := rfl

@[simp] theorem isFinite_rat : isFinite a = true := rfl

@[simp] theorem less_rat : less a b = decide (a < b) := rfl

@[simp] theorem equal_rat : equal a b = decide (a = b) := rfl

@[simp] theorem abs_rat : abs a = |a| := rfl

end Scalar
end GraphCalc
