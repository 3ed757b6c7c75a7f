import GraphCalc.Proofs.Number.Nearest

/-! # Rounding a mantissa with residual bits

Sums, products and quotients are computed with more bits than a double has. The mantissa is then
shifted to its place, and two bits remember what was cut off: whether the rest reaches a half, and
whether there is more. Main notions and statements:

* `Residue`: the bits that are left of a quotient of naturals;
* `Residue.shiftRight`, `Residue.roundedMantissa_eq`: shifting halves the quotient, and the two bits
  suffice to round it;
* `pack_roundWithAccuracy`: the double so computed is the nearest one.
-/

namespace GraphCalc.Binary64
open Float.Model Float.Model.UnpackedFloat
set_option autoImplicit false

/-! ## The bits left of a quotient -/

/-- A mantissa and its residual bits agree with `n / d`: the quotient counted in halves, cut off, and
whether something was cut off. -/
structure Residue (em : ExtendedMantissa) (n d : ℕ) : Prop where
  lower : (2 * em.mantissa + em.roundBit.toNat) * d ≤ 2 * n
  upper : 2 * n < (2 * em.mantissa + em.roundBit.toNat + 1) * d
  exact : em.stickyBit = false ↔ 2 * n = (2 * em.mantissa + em.roundBit.toNat) * d

theorem residue_exact (m : ℕ) : Residue (.ofMantissaAndAccuracy m .exact) m 1 :=
  ⟨by simp [ExtendedMantissa.ofMantissaAndAccuracy], by simp [ExtendedMantissa.ofMantissaAndAccuracy],
    by simp [ExtendedMantissa.ofMantissaAndAccuracy]⟩

theorem residue_fraction (n : ℕ) {d : ℕ} (hd : 0 < d) :
    Residue (.ofMantissaAndAccuracy (n / d) (accuracyOfFraction (n % d) d)) n d := by
  have hdiv := Nat.div_add_mod n d
  have hmod := Nat.mod_lt n hd
  set q := n / d
  set r := n % d
  have hmul : d * q = q * d := Nat.mul_comm d q
  rcases Nat.eq_zero_or_pos r with h0 | hpos
  · rw [accuracyOfFraction, if_pos h0]
    constructor <;> simp only [ExtendedMantissa.ofMantissaAndAccuracy, Bool.toNat_false] <;> grind
  · rw [accuracyOfFraction, if_neg hpos.ne']
    rcases lt_trichotomy (2 * r) d with h | h | h
    · rw [compare_lt_iff_lt.mpr h]
      constructor <;> simp only [ExtendedMantissa.ofMantissaAndAccuracy, Bool.toNat_false] <;> grind
    · rw [compare_eq_iff_eq.mpr h]
      constructor <;> simp only [ExtendedMantissa.ofMantissaAndAccuracy, Bool.toNat_true] <;> grind
    · rw [compare_gt_iff_gt.mpr h]
      constructor <;> simp only [ExtendedMantissa.ofMantissaAndAccuracy, Bool.toNat_true] <;> grind

namespace Residue
variable {em : ExtendedMantissa} {n d : ℕ}

theorem mantissa_eq (h : Residue em n d) : em.mantissa = n / d := by
  obtain ⟨hl, hu, -⟩ := h
  have hd : 0 < d := Nat.pos_of_ne_zero fun h0 => by simp [h0] at hu
  have hbit : em.roundBit.toNat ≤ 1 := Bool.toNat_le _
  refine (Nat.div_eq_of_lt_le ?_ ?_).symm
  · nlinarith
  · nlinarith

theorem shiftRightOne (h : Residue em n d) : Residue em.shiftRightOne n (2 * d) := by
  obtain ⟨hl, hu, he⟩ := h
  have hbits : 2 * (em.mantissa / 2) + (em.mantissa % 2 != 0).toNat = em.mantissa := by
    rcases Nat.mod_two_eq_zero_or_one em.mantissa with h | h <;> simp [h] <;> omega
  constructor
  all_goals
    simp only [ExtendedMantissa.shiftRightOne, hbits]
    cases hr : em.roundBit <;> cases hs : em.stickyBit <;>
      simp only [hr, hs, Bool.toNat_true, Bool.toNat_false] at hl hu he ⊢
  all_goals grind

theorem shiftRight (h : Residue em n d) (k : ℕ) : Residue (em >>> k) n (2 ^ k * d) := by
  show Residue (k.repeat ExtendedMantissa.shiftRightOne em) n (2 ^ k * d)
  induction k with
  | zero => rwa [Nat.pow_zero, Nat.one_mul]
  | succ k ih =>
    rw [Nat.pow_succ, Nat.mul_comm (2 ^ k), Nat.mul_assoc]
    exact ih.shiftRightOne

/-- The two residual bits say to which side the quotient is rounded. -/
theorem roundedMantissa_eq (h : Residue em n d) : em.roundedMantissa = roundQuotient n d := by
  have hm := h.mantissa_eq
  obtain ⟨hl, hu, he⟩ := h
  have hdiv := Nat.div_add_mod n d
  obtain ⟨m, round, sticky⟩ := em
  dsimp only at hm hl hu he
  subst hm
  unfold roundQuotient ExtendedMantissa.roundedMantissa
  generalize n % d = r at *
  generalize n / d = q at *
  have hmul : d * q = q * d := Nat.mul_comm d q
  cases round <;> cases sticky <;>
    simp only [Bool.toNat_true, Bool.toNat_false, ExtendedMantissa.accuracy,
      Accuracy.roundToNearestEven] at hl hu he ⊢ <;>
    split_ifs <;> grind

end Residue

/-! ## The place of the rounded mantissa -/

theorem targetExponent_eq (k : ℤ) :
    Format.binary64.targetExponent k = max (-1074) (k - 53) :=
  max_comm _ _

/-- The logarithm of a number is that of its whole part, if this is positive. -/
theorem log_scaled {m : ℕ} {x : ℚ} (hm : 0 < m) (hlower : (m : ℚ) ≤ x) (hupper : x < m + 1)
    (e : ℤ) : Int.log 2 (x * 2 ^ e) = m.log2 + e := by
  have hself : ((2 ^ m.log2 : ℕ) : ℚ) ≤ m := by exact_mod_cast Nat.log2_self_le hm.ne'
  have hnext : (m : ℚ) + 1 ≤ (2 ^ (m.log2 + 1) : ℕ) := by exact_mod_cast Nat.lt_log2_self (n := m)
  push_cast at hself hnext
  refine log_eq ?_ ?_
  · rw [zpow_add₀ (by norm_num), zpow_natCast]
    exact mul_le_mul_of_nonneg_right (hself.trans hlower) (by positivity)
  · rw [add_right_comm, zpow_add₀ (by norm_num)]
    refine mul_lt_mul_of_pos_right (hupper.trans_le ?_) (by positivity)
    exact_mod_cast hnext

/-- The place that is aimed at belongs to the number, although it is computed from the mantissa
without the part cut off. -/
theorem targetExponent_eq_placeOf {n d : ℕ} {e : ℤ} {q : ℚ} (hd : 0 < d) (hq : 0 < q)
    (hvalue : q = n / d * 2 ^ e) (he : e ≤ placeOf q) :
    Format.binary64.targetExponent (totalExponent (n / d) e) = placeOf q := by
  have hden : (0 : ℚ) < d := by exact_mod_cast hd
  have hupper : (n / d : ℚ) < (n / d : ℕ) + 1 := by
    rw [div_lt_iff₀ hden, mul_comm]
    exact_mod_cast Nat.lt_mul_div_succ n hd
  rw [targetExponent_eq, totalExponent]
  rcases Nat.eq_zero_or_pos (n / d) with h0 | hpos
  -- without a whole part both places are the least one that is allowed
  · have hlog : Int.log 2 q < e := by
      refine (Int.lt_zpow_iff_log_lt (b := 2) (by decide) hq).mp ?_
      rw [h0, Nat.cast_zero, zero_add] at hupper
      rw [hvalue]
      push_cast
      exact mul_lt_of_lt_one_left (by positivity) hupper
    have hzero : Nat.log2 0 = 0 := by decide
    unfold placeOf at he ⊢
    rw [h0, hzero]
    omega
  · have hlog : Int.log 2 q = (n / d).log2 + e :=
      hvalue ▸ log_scaled hpos Nat.cast_div_le hupper e
    unfold placeOf
    rw [hlog]
    omega

/-! ## Packing the rounded mantissa -/

theorem pack_overflow_toNat (s : Sign) {m : ℕ} {e : ℤ} (h : 0 < m) (he : 972 ≤ e) :
    (UnpackedFloat.pack Format.binary64 (.finite s m e h) : BitVec 64).toNat =
      signBits s + infinityBits := by
  have hbias : ((Format.exponentBias Format.binary64 : ℕ) : ℤ) = 1023 := rfl
  have hlarge : 2 ^ 11 ≤ (e + (Format.exponentBias Format.binary64 : ℕ) + (52 : ℕ)).toNat + 1 := by
    omega
  rw [← pack_infinity_toNat]
  congr 1
  show (if 2 ^ 11 ≤ (e + (Format.exponentBias Format.binary64 : ℕ) + (52 : ℕ)).toNat + 1 then _
    else _) = _
  rw [if_pos hlarge]
  rfl

/-- A mantissa of 53 bits at most is packed as it is, or as infinity if the exponent is too large. -/
theorem pack_finite_toNat (s : Sign) {m : ℕ} {e : ℤ} (h : 0 < m) (hm : m < 2 ^ 53) (he : -1074 ≤ e)
    (hfull : 2 ^ 52 ≤ m ∨ e = -1074) :
    (UnpackedFloat.pack Format.binary64 (.finite s m e h) : BitVec 64).toNat =
      signBits s + min infinityBits ((e + 1074).toNat * 2 ^ 52 + m) := by
  unfold infinityBits
  rcases lt_or_ge m (2 ^ 52) with hsub | hnorm
  · obtain rfl : e = -1074 := by omega
    rw [pack_subnormal_toNat s h hsub]
    omega
  rcases lt_or_ge e 972 with hrange | hlarge
  · rw [pack_normal_toNat s h hnorm hm he (by omega)]
    omega
  · rw [pack_overflow_toNat s h hlarge, infinityBits]
    omega

/-- A rounded mantissa under its sign. Where rounding gives one bit more, the exponent grows. -/
def settle (s : Sign) (m : ℕ) (e : ℤ) : UnpackedFloat :=
  let shifted := shiftToTargetExponent Format.binary64 m e .exact
  if h : shifted.1.mantissa = 0 then .zero s
  else .finite s shifted.1.mantissa shifted.2 (Nat.pos_of_ne_zero h)

theorem roundWithAccuracy_eq (s : Sign) (m : ℕ) (e : ℤ) (accuracy : Accuracy) :
    roundWithAccuracy Format.binary64 s m e accuracy =
      settle s (shiftToTargetExponent Format.binary64 m e accuracy).1.roundedMantissa
        (shiftToTargetExponent Format.binary64 m e accuracy).2 := rfl

theorem pack_settle (s : Sign) {m : ℕ} {e : ℤ} (hm : m ≤ 2 ^ 53) (he : -1074 ≤ e)
    (hfull : 2 ^ 52 ≤ m ∨ e = -1074) :
    (UnpackedFloat.pack Format.binary64 (settle s m e) : BitVec 64).toNat =
      signBits s + min infinityBits ((e + 1074).toNat * 2 ^ 52 + m) := by
  rcases hm.lt_or_eq with hlt | rfl
  -- only a carry into the next power of two asks for one more shift
  · have hlog : m.log2 ≤ 52 := by
      rcases Nat.eq_zero_or_pos m with rfl | hpos
      · decide
      · exact Nat.lt_succ_iff.mp ((Nat.log2_lt hpos.ne').mpr hlt)
    have htarget : (Format.binary64.targetExponent (totalExponent m e) - e).toNat = 0 := by
      rw [targetExponent_eq, totalExponent]
      omega
    have hshift : shiftToTargetExponent Format.binary64 m e .exact = (⟨m, false, false⟩, e) := by
      unfold shiftToTargetExponent shiftToExponent
      dsimp only
      rw [htarget, Nat.cast_zero, add_zero]
      rfl
    unfold settle
    simp only [hshift]
    split
    · next h0 =>
      obtain rfl : e = -1074 := by omega
      rw [pack_zero_toNat, h0]
      rfl
    · next h0 => exact pack_finite_toNat s _ hlt he hfull
  · have hlog : Nat.log2 (2 ^ 53) = 53 := by decide
    have htarget : (Format.binary64.targetExponent (totalExponent (2 ^ 53) e) - e).toNat = 1 := by
      rw [targetExponent_eq, totalExponent, hlog]
      omega
    have hshift : shiftToTargetExponent Format.binary64 (2 ^ 53) e .exact =
        (⟨2 ^ 52, false, false⟩, e + 1) := by
      unfold shiftToTargetExponent shiftToExponent
      dsimp only
      rw [htarget]
      rfl
    unfold settle
    simp only [hshift]
    rw [dif_neg (by decide), pack_finite_toNat s _ (by decide) (by omega) (.inl le_rfl)]
    omega

/-! ## The nearest double -/

/-- A quotient of which enough bits are left is packed as the nearest double. -/
theorem pack_roundWithAccuracy (s : Sign) {m n d : ℕ} {e : ℤ} {accuracy : Accuracy} {q : ℚ}
    (hd : 0 < d) (hq : 0 < q) (hresidue : Residue (.ofMantissaAndAccuracy m accuracy) n d)
    (hvalue : q = n / d * 2 ^ e) (he : e ≤ placeOf q) :
    (UnpackedFloat.pack Format.binary64
      (roundWithAccuracy Format.binary64 s m e accuracy) : BitVec 64).toNat =
        signBits s + nearestBits q := by
  have hm : m = n / d := by
    rw [← hresidue.mantissa_eq]
    cases accuracy with
    | exact => rfl
    | inexact o => cases o <;> rfl
  have hplace := targetExponent_eq_placeOf hd hq hvalue he
  rw [← hm] at hplace
  set shift := (placeOf q - e).toNat with hshift
  have hsum : e + shift = placeOf q := by omega
  have hcut : shiftToTargetExponent Format.binary64 m e accuracy =
      (ExtendedMantissa.ofMantissaAndAccuracy m accuracy >>> shift, placeOf q) := by
    unfold shiftToTargetExponent shiftToExponent
    dsimp only
    rw [hplace, ← hshift, hsum]
  have hleft := hresidue.shiftRight shift
  have hscaled : q / 2 ^ placeOf q = n / (2 ^ shift * d : ℕ) := by
    rw [← hsum, zpow_add₀ (by norm_num), zpow_natCast, hvalue]
    push_cast
    field_simp
  have hd' : 0 < 2 ^ shift * d := by positivity
  have hbits := nearestBits_eq hq hd' hscaled
  rw [roundWithAccuracy_eq, hcut, hleft.roundedMantissa_eq, hbits]
  have hleast : -1074 ≤ placeOf q := le_max_left _ _
  refine pack_settle s ?_ hleast ?_
  · exact roundQuotient_le hd' hscaled
  · rcases hleast.lt_or_eq with hlt | heq
    · exact .inl (le_roundQuotient_of_full hq hd' hscaled hlt)
    · exact .inr heq.symm

end GraphCalc.Binary64
