import GraphCalc.Proofs.Number.Bits

/-! # Rounding a quotient to a double

The bits of the double nearest to a quotient depend on the quotient alone, not on how it is written.
Main statements:

* `lastPlace_eq`: the last place is read off the binary logarithm of the quotient;
* `ofRatio_congr`: equal quotients round to the same double;
* `ofRatio_of_parts`: a quotient that is a positive double rounds to that double;
* `isNegative_ofRatio`: no quotient rounds to a double with a sign.
-/

namespace GraphCalc.Binary64
set_option autoImplicit false

/-! ## Powers of integers -/

theorem zpow_eq_div (b : ℕ) (k : ℤ) :
    (b : ℚ) ^ k = (b ^ k.toNat : ℕ) / (b ^ (-k).toNat : ℕ) := by
  obtain ⟨n, rfl | rfl⟩ := k.eq_nat_or_neg
  · simp
  · simp

/-- Comparison with an integer power, without division. -/
theorem div_lt_zpow_iff {num den : ℕ} (hd : 0 < den) (b : ℕ) (hb : b ≠ 0) (k : ℤ) :
    (num / den : ℚ) < (b : ℚ) ^ k ↔ num * b ^ (-k).toNat < den * b ^ k.toNat := by
  have hden : (0 : ℚ) < den := by exact_mod_cast hd
  have hpow : (0 : ℚ) < (b ^ (-k).toNat : ℕ) := by exact_mod_cast Nat.pow_pos (Nat.pos_of_ne_zero hb)
  rw [zpow_eq_div b, div_lt_div_iff₀ hden hpow, mul_comm ((b ^ k.toNat : ℕ) : ℚ)]
  exact_mod_cast Iff.rfl

theorem le_log {q : ℚ} {k : ℤ} (hq : 0 < q) (h : (2 : ℚ) ^ k ≤ q) : k ≤ Int.log 2 q :=
  (Int.zpow_le_iff_le_log (b := 2) (by decide) hq).mp (by exact_mod_cast h)

theorem log_eq {q : ℚ} {k : ℤ} (hlo : (2 : ℚ) ^ k ≤ q) (hhi : q < (2 : ℚ) ^ (k + 1)) :
    Int.log 2 q = k := by
  have hq : 0 < q := lt_of_lt_of_le (by positivity) hlo
  have h1 := le_log hq hlo
  have h2 := (Int.lt_zpow_iff_log_lt (b := 2) (by decide) hq).mp (by exact_mod_cast hhi)
  omega

/-! ## The last place -/

/-- The difference of the binary logarithms of two naturals is that of their quotient or one more. -/
theorem div_bounds {num den : ℕ} (hn : 0 < num) (hd : 0 < den) :
    (2 : ℚ) ^ ((num.log2 : ℤ) - den.log2 - 1) < num / den ∧
    (num / den : ℚ) < 2 ^ ((num.log2 : ℤ) - den.log2 + 1) := by
  have hden : (0 : ℚ) < den := by exact_mod_cast hd
  have hpow : ∀ (k : ℤ) (a b : ℕ), k + b = a → (2 : ℚ) ^ k * 2 ^ b = 2 ^ a := by
    intro k a b h
    rw [← zpow_natCast, ← zpow_natCast, ← zpow_add₀ (by norm_num), h]
  constructor
  · rw [lt_div_iff₀ hden]
    calc (2 : ℚ) ^ ((num.log2 : ℤ) - den.log2 - 1) * den
        < 2 ^ ((num.log2 : ℤ) - den.log2 - 1) * 2 ^ (den.log2 + 1) := by
          apply mul_lt_mul_of_pos_left _ (by positivity)
          exact_mod_cast Nat.lt_log2_self
      _ = 2 ^ num.log2 := hpow _ _ _ (by push_cast; ring)
      _ ≤ num := by exact_mod_cast Nat.log2_self_le hn.ne'
  · rw [div_lt_iff₀ hden]
    calc (num : ℚ) < 2 ^ (num.log2 + 1) := by exact_mod_cast Nat.lt_log2_self
      _ = 2 ^ ((num.log2 : ℤ) - den.log2 + 1) * 2 ^ den.log2 := by
          exact (hpow _ _ _ (by push_cast; ring)).symm
      _ ≤ 2 ^ ((num.log2 : ℤ) - den.log2 + 1) * den := by
          apply mul_le_mul_of_nonneg_left _ (by positivity)
          exact_mod_cast Nat.log2_self_le hd.ne'

theorem lastPlace_eq {num den : ℕ} (hn : 0 < num) (hd : 0 < den) :
    lastPlace num den = max (-1074) (Int.log 2 (num / den : ℚ) - 52) := by
  obtain ⟨hlow, hhigh⟩ := div_bounds hn hd
  set guess : ℤ := (num.log2 : ℤ) - den.log2 with hguess
  have htest : (num / den : ℚ) < 2 ^ guess ↔
      num * 2 ^ (-guess).toNat < den * 2 ^ guess.toNat := by
    exact_mod_cast div_lt_zpow_iff hd 2 (by decide) guess
  show max (-1074) ((if num * 2 ^ (-guess).toNat < den * 2 ^ guess.toNat then guess - 1 else guess)
    - 52) = _
  congr 2
  split
  · next h => rw [log_eq hlow.le (by simpa using htest.mpr h)]
  · next h => rw [log_eq (not_lt.mp (htest.not.mpr h)) hhigh]

/-! ## Rounding a quotient of naturals -/

theorem roundQuotient_mul (k n d : ℕ) (hk : 0 < k) :
    roundQuotient (k * n) (k * d) = roundQuotient n d := by
  have hlt : ∀ a b, k * a < k * b ↔ a < b := fun a b => Nat.mul_lt_mul_left hk
  unfold roundQuotient
  rw [Nat.mul_div_mul_left _ _ hk, Nat.mul_mod_mul_left, Nat.mul_left_comm 2 k]
  simp only [hlt]

theorem roundQuotient_mul_self (m d : ℕ) (hd : 0 < d) : roundQuotient (m * d) d = m := by
  simp [roundQuotient, Nat.mul_div_cancel _ hd, hd]

theorem le_roundQuotient (n d : ℕ) : n / d ≤ roundQuotient n d := by
  unfold roundQuotient
  dsimp only
  split
  · exact le_rfl
  · split
    · exact Nat.le_succ _
    · split
      · exact le_rfl
      · exact Nat.le_succ _

/-! ## The nearest double -/

theorem ratioBits_zero (den : ℕ) : ratioBits 0 den = 0 := rfl

/-- The bits above the last place: the quotient counted in last places, below the exponent. -/
theorem ratioBits_eq {num den : ℕ} {place : ℤ} (hn : 0 < num) (hplace : lastPlace num den = place) :
    ratioBits num den = min infinityBits ((place + 1074).toNat * 2 ^ 52 +
      roundQuotient (num * 2 ^ (-place).toNat) (den * 2 ^ place.toNat)) := by
  subst hplace
  rw [ratioBits, if_neg hn.ne']
  rfl

theorem ratioBits_mul {num den k : ℕ} (hd : 0 < den) (hk : 0 < k) :
    ratioBits (k * num) (k * den) = ratioBits num den := by
  rcases Nat.eq_zero_or_pos num with rfl | hn
  · rw [Nat.mul_zero, ratioBits_zero, ratioBits_zero]
  have hplace : lastPlace (k * num) (k * den) = lastPlace num den := by
    have hk' : (k : ℚ) ≠ 0 := by exact_mod_cast hk.ne'
    rw [lastPlace_eq (Nat.mul_pos hk hn) (Nat.mul_pos hk hd), lastPlace_eq hn hd]
    push_cast
    rw [mul_div_mul_left _ _ hk']
  rw [ratioBits_eq (Nat.mul_pos hk hn) hplace, ratioBits_eq hn rfl, Nat.mul_assoc, Nat.mul_assoc,
    roundQuotient_mul _ _ _ hk]

theorem ofRatio_congr {num den num' den' : ℕ} (hd : 0 < den) (hd' : 0 < den')
    (h : num * den' = num' * den) : ofRatio num den = ofRatio num' den' := by
  unfold ofRatio
  rw [← ratioBits_mul hd hd', ← @ratioBits_mul num' den' den hd' hd, Nat.mul_comm den' num, h,
    Nat.mul_comm num', Nat.mul_comm den']

theorem ratioBits_le (num den : ℕ) : ratioBits num den ≤ infinityBits := by
  rcases Nat.eq_zero_or_pos num with rfl | hn
  · exact Nat.zero_le _
  · rw [ratioBits_eq hn rfl]
    exact Nat.min_le_left _ _

theorem toBits_ofRatio (num den : ℕ) : (ofRatio num den).toBits.toNat = ratioBits num den := by
  have hle := ratioBits_le num den
  have hinf : infinityBits < 2 ^ 63 := by decide
  have htoNat : (UInt64.ofNat (ratioBits num den)).toNat = ratioBits num den :=
    Nat.mod_eq_of_lt (by show _ < 2 ^ 64; omega)
  unfold ofRatio
  rw [toBits_ofBits (by rw [htoNat, Nat.mod_eq_of_lt (by omega)]; exact hle), htoNat]

theorem isNegative_ofRatio (num den : ℕ) : isNegative (ofRatio num den) = false := by
  have hle := ratioBits_le num den
  have hinf : infinityBits < 2 ^ 63 := by decide
  rw [Bool.eq_false_iff, ne_eq, isNegative_iff, toBits_ofRatio]
  omega

/-- Above the range of doubles the result is infinity. -/
theorem ratioBits_of_large {num den : ℕ} (hd : 0 < den) (h : den * 2 ^ 1024 ≤ num) :
    ratioBits num den = infinityBits := by
  have hden : (0 : ℚ) < den := by exact_mod_cast hd
  have hn : 0 < num := lt_of_lt_of_le (by positivity) h
  have hq : (0 : ℚ) < num / den := div_pos (by exact_mod_cast hn) hden
  have hlog : 1024 ≤ Int.log 2 (num / den : ℚ) := by
    refine le_log hq ?_
    rw [le_div_iff₀ hden, mul_comm]
    exact_mod_cast h
  have hself := Int.zpow_log_le_self (b := 2) (by decide) hq
  have hplace : lastPlace num den = Int.log 2 (num / den : ℚ) - 52 := by
    rw [lastPlace_eq hn hd]
    omega
  set place := lastPlace num den with hplacedef
  have hmantissa : 2 ^ 52 ≤ num * 2 ^ (-place).toNat / (den * 2 ^ place.toNat) := by
    have hneg : (-place).toNat = 0 := by omega
    have hpos : 0 < den * 2 ^ place.toNat := by positivity
    rw [hneg, Nat.pow_zero, Nat.mul_one, Nat.le_div_iff_mul_le hpos]
    have hpow : (2 : ℚ) ^ Int.log 2 (num / den : ℚ) = 2 ^ 52 * 2 ^ place.toNat := by
      rw [← pow_add, ← zpow_natCast]
      congr 1
      omega
    push_cast at hself
    rw [hpow, le_div_iff₀ hden] at hself
    have hcast : 2 ^ 52 * 2 ^ place.toNat * den ≤ num := by exact_mod_cast hself
    calc 2 ^ 52 * (den * 2 ^ place.toNat) = 2 ^ 52 * 2 ^ place.toNat * den := by ring
      _ ≤ num := hcast
  have hround := le_trans hmantissa (le_roundQuotient _ _)
  rw [ratioBits_eq hn hplacedef.symm, infinityBits]
  omega

/-- Below half of the least positive double the result is zero. -/
theorem ratioBits_of_small {num den : ℕ} (hd : 0 < den) (h : num * 2 ^ 1075 < den) :
    ratioBits num den = 0 := by
  rcases Nat.eq_zero_or_pos num with rfl | hn
  · exact ratioBits_zero den
  have hden : (0 : ℚ) < den := by exact_mod_cast hd
  have hq : (0 : ℚ) < num / den := div_pos (by exact_mod_cast hn) hden
  have hlog : Int.log 2 (num / den : ℚ) < -1075 := by
    refine (Int.lt_zpow_iff_log_lt (b := 2) (by decide) hq).mp ?_
    have hpow : num * 2 ^ (-(-1075 : ℤ)).toNat < den * 2 ^ (-1075 : ℤ).toNat := by
      rw [neg_neg, show (1075 : ℤ).toNat = 1075 from rfl, show (-1075 : ℤ).toNat = 0 from rfl,
        pow_zero, mul_one]
      exact h
    exact_mod_cast (div_lt_zpow_iff hd 2 (by decide) (-1075)).mpr hpow
  have hplace : lastPlace num den = -1074 := by
    rw [lastPlace_eq hn hd]
    omega
  have hround : roundQuotient (num * 2 ^ 1074) den = 0 := by
    have hdouble : ∀ k : ℕ, 2 * (num * 2 ^ k) = num * 2 ^ (k + 1) := fun k => by ring
    have hlt : 2 * (num * 2 ^ 1074) < den := by simpa only [hdouble, Nat.reduceAdd] using h
    have hlt' : num * 2 ^ 1074 < den :=
      lt_of_le_of_lt (Nat.le_mul_of_pos_left _ (by decide)) hlt
    unfold roundQuotient
    rw [Nat.mod_eq_of_lt hlt', Nat.div_eq_of_lt hlt']
    exact if_pos hlt
  have hpow : den * 2 ^ (-1074 : ℤ).toNat = den := by simp
  have hexponent : (-(-1074 : ℤ)).toNat = 1074 := rfl
  rw [ratioBits_eq hn hplace, hpow, hexponent, hround]
  rfl

/-- A quotient that a mantissa and an exponent of a double write has the bits of that double. -/
theorem ratioBits_scaled {m : ℕ} {e : ℤ} (hm : 0 < m) (hm' : m < 2 ^ 53) (he : -1074 ≤ e)
    (he' : e ≤ 971) (hnormal : 2 ^ 52 ≤ m ∨ e = -1074) :
    ratioBits (m * 2 ^ e.toNat) (2 ^ (-e).toNat) = (e + 1074).toNat * 2 ^ 52 + m := by
  have hn : 0 < m * 2 ^ e.toNat := by positivity
  have hd : 0 < 2 ^ (-e).toNat := by positivity
  have hq : ((m * 2 ^ e.toNat : ℕ) / (2 ^ (-e).toNat : ℕ) : ℚ) = m * 2 ^ e := by
    have hpow := zpow_eq_div 2 e
    push_cast at hpow ⊢
    rw [hpow]
    ring
  have hlog : Int.log 2 ((m * 2 ^ e.toNat : ℕ) / (2 ^ (-e).toNat : ℕ) : ℚ) = m.log2 + e := by
    have h1 := Nat.log2_self_le hm.ne'
    have h2 := Nat.lt_log2_self (n := m)
    rw [hq]
    refine log_eq ?_ ?_
    · rw [zpow_add₀ (by norm_num), zpow_natCast]
      apply mul_le_mul_of_nonneg_right _ (by positivity)
      exact_mod_cast h1
    · rw [add_right_comm, zpow_add₀ (by norm_num)]
      apply mul_lt_mul_of_pos_right _ (by positivity)
      exact_mod_cast h2
  have hlog2 : m.log2 < 53 := (Nat.log2_lt hm.ne').mpr hm'
  have hplace : lastPlace (m * 2 ^ e.toNat) (2 ^ (-e).toNat) = e := by
    rw [lastPlace_eq hn hd, hlog]
    rcases hnormal with hnormal | hleast
    · have : 52 ≤ m.log2 := (Nat.le_log2 hm.ne').mpr hnormal
      omega
    · omega
  rw [ratioBits_eq hn hplace, Nat.mul_assoc, Nat.mul_comm (2 ^ e.toNat),
    roundQuotient_mul_self _ _ (by positivity), infinityBits]
  omega

theorem ofRatio_of_parts {v : Float} (hpos : 0 < v.toBits.toNat)
    (hlt : v.toBits.toNat < infinityBits) :
    ofRatio (parts v).numerator (parts v).denominator = v := by
  have hinf : infinityBits = 2047 * 2 ^ 52 := rfl
  apply toBits_injective
  apply UInt64.toNat_inj.mp
  rw [toBits_ofRatio]
  have hmod : v.toBits.toNat % 2 ^ 63 = v.toBits.toNat := Nat.mod_eq_of_lt (by omega)
  unfold parts Parts.numerator Parts.denominator
  simp only [Nat.pow_eq]
  rw [hmod]
  split
  · next hfield =>
    dsimp only
    rw [ratioBits_scaled (by omega) (by omega) (by omega) (by omega) (.inr rfl)]
    omega
  · next hfield =>
    dsimp only
    rw [ratioBits_scaled (by omega) (by omega) (by omega) (by omega) (.inl (by omega))]
    omega

end GraphCalc.Binary64
