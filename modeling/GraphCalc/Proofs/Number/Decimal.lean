import GraphCalc.Number.Shortest
import GraphCalc.Proofs.Number.Rounding

/-! # Decimals and doubles

The double nearest to a decimal depends on the number it writes alone, and the digits chosen for a
double read back as that double. Main notions and statements:

* `Decimal.rational`: the number that a decimal writes;
* `Decimal.toFloat_eq_ofRatio`: the two shortcuts of `Decimal.toFloat` do not change its result;
* `Decimal.toFloat_congr`: decimals of one number have one nearest double;
* `Decimal.isNegative_toFloat`: no decimal reads as a double with a sign;
* `Decimal.toFloat_shortest`: the shortest digits of a positive finite double read back as it.
-/

namespace GraphCalc
open GraphCalc.Binary64
set_option autoImplicit false

namespace Decimal

/-- The number that a decimal writes. -/
def rational (d : Decimal) : ℚ := d.digits * (10 : ℚ) ^ d.exponent

/-! ## The nearest double -/

theorem ofRatio_eq_infinity {num den : ℕ} (h : ratioBits num den = infinityBits) :
    ofRatio num den = infinity := by
  unfold ofRatio
  rw [h]
  rfl

theorem ofRatio_eq_zero {num den : ℕ} (h : ratioBits num den = 0) : ofRatio num den = 0.0 := by
  apply toBits_injective
  apply UInt64.toNat_inj.mp
  rw [toBits_ofRatio, toBits_zero, h]
  rfl

theorem two_pow_le_ten_pow (k : ℕ) : 2 ^ (3 * k) ≤ 10 ^ k := by
  rw [Nat.pow_mul]
  exact Nat.pow_le_pow_left (by decide) k

/-- The two shortcuts for exponents far outside the range of doubles do not change the result. -/
theorem toFloat_eq_ofRatio (d : Decimal) :
    d.toFloat = ofRatio (d.digits * 10 ^ d.exponent.toNat) (10 ^ (-d.exponent).toNat) := by
  unfold toFloat
  split
  · next hzero => rw [hzero, Nat.zero_mul, ofRatio_eq_zero rfl]
  next hdigits =>
  split
  · next hlarge =>
    refine (ofRatio_eq_infinity (ratioBits_of_large (Nat.pow_pos (by decide)) ?_)).symm
    have hden : (-d.exponent).toNat = 0 := by omega
    rw [hden, Nat.pow_zero, Nat.one_mul]
    calc 2 ^ 1024 ≤ 2 ^ (3 * d.exponent.toNat) := pow_le_pow_right₀ (by decide) (by omega)
      _ ≤ 10 ^ d.exponent.toNat := two_pow_le_ten_pow _
      _ ≤ d.digits * 10 ^ d.exponent.toNat := Nat.le_mul_of_pos_left _ (by omega)
  split
  · next hsmall =>
    refine (ofRatio_eq_zero (ratioBits_of_small (Nat.pow_pos (by decide)) ?_)).symm
    have hnum : d.exponent.toNat = 0 := by omega
    have hlog := Nat.lt_log2_self (n := d.digits)
    rw [hnum, Nat.pow_zero, Nat.mul_one]
    calc d.digits * 2 ^ 1075 < 2 ^ (d.digits.log2 + 1) * 2 ^ 1075 :=
          mul_lt_mul_of_pos_right hlog (by positivity)
      _ = 2 ^ (d.digits.log2 + 1 + 1075) := (pow_add _ _ _).symm
      _ ≤ 2 ^ (3 * (-d.exponent).toNat) := pow_le_pow_right₀ (by decide) (by omega)
      _ ≤ 10 ^ (-d.exponent).toNat := two_pow_le_ten_pow _
  · rfl

theorem rational_eq_div (d : Decimal) :
    d.rational = (d.digits * 10 ^ d.exponent.toNat : ℕ) / (10 ^ (-d.exponent).toNat : ℕ) := by
  have hpow := zpow_eq_div 10 d.exponent
  push_cast at hpow ⊢
  rw [rational, hpow, mul_div_assoc]

/-- A decimal that writes the quotient of two naturals has the double nearest to that quotient. -/
theorem toFloat_of_rational {d : Decimal} {num den : ℕ} (hden : 0 < den)
    (h : d.rational = num / den) : d.toFloat = ofRatio num den := by
  rw [toFloat_eq_ofRatio]
  have hpos : 0 < 10 ^ (-d.exponent).toNat := Nat.pow_pos (by decide)
  refine ofRatio_congr hpos hden ?_
  have hden' : (den : ℚ) ≠ 0 := by exact_mod_cast hden.ne'
  have hpos' : ((10 ^ (-d.exponent).toNat : ℕ) : ℚ) ≠ 0 := by exact_mod_cast hpos.ne'
  rw [rational_eq_div, div_eq_div_iff hpos' hden'] at h
  exact_mod_cast h

theorem toFloat_congr {d d' : Decimal} (h : d.rational = d'.rational) : d.toFloat = d'.toFloat := by
  rw [toFloat_of_rational (Nat.pow_pos (by decide)) (h.trans (rational_eq_div d')),
    ← toFloat_eq_ofRatio]

theorem isNegative_toFloat (d : Decimal) : isNegative d.toFloat = false := by
  rw [toFloat_eq_ofRatio]
  exact isNegative_ofRatio _ _

/-! ## The shortest digits -/

theorem readsAs_iff {d : Decimal} {v : Float} : d.readsAs v = true ↔ d.toFloat = v := by
  rw [readsAs, beq_iff_eq]
  exact ⟨toBits_injective, congrArg Float.toBits⟩

theorem roundQuotient_eq_or (n d : ℕ) :
    roundQuotient n d = n / d ∨ roundQuotient n d = n / d + 1 := by
  unfold roundQuotient
  dsimp only
  split
  · exact .inl rfl
  · split
    · exact .inr rfl
    · split
      · exact .inl rfl
      · exact .inr rfl

theorem toFloat_of_onGrid {v : Float} {num den : ℕ} {place : ℤ} {d : Decimal}
    (h : onGrid v num den place = some d) : d.toFloat = v := by
  unfold onGrid at h
  dsimp only at h
  split at h
  · next hbelow habove =>
    cases h
    rcases roundQuotient_eq_or (inUnits num den place).1 (inUnits num den place).2 with heq | heq
    · rw [heq]
      exact readsAs_iff.mp hbelow
    · rw [heq]
      exact readsAs_iff.mp habove
  · next hbelow _ =>
    cases h
    exact readsAs_iff.mp hbelow
  · next _ habove =>
    cases h
    exact readsAs_iff.mp habove
  · cases h

theorem rational_exact (p : Parts) : (exact p).rational = p.numerator / p.denominator := by
  set down := (-p.exponent).toNat with hdown
  have hten : (10 : ℚ) ^ down = 5 ^ down * 2 ^ down := by
    rw [← mul_pow]
    norm_num
  have htwo : (2 : ℚ) ^ down ≠ 0 := by positivity
  have hfive : (5 : ℚ) ^ down ≠ 0 := by positivity
  rw [rational, Parts.denominator, ← hdown]
  show ((p.numerator * 5 ^ down : ℕ) : ℚ) * (10 : ℚ) ^ (-(down : ℤ)) = p.numerator / (2 ^ down : ℕ)
  rw [zpow_neg, zpow_natCast, hten]
  push_cast
  field_simp

theorem toFloat_shortest {v : Float} (hpos : 0 < v.toBits.toNat)
    (hlt : v.toBits.toNat < infinityBits) : (shortest v).toFloat = v := by
  unfold shortest
  dsimp only
  cases hfound : (List.range maxShortestDigits).findSome? _ with
  | none =>
    rw [Option.getD_none, toFloat_of_rational (Nat.pow_pos (by decide)) (rational_exact _)]
    exact ofRatio_of_parts hpos hlt
  | some d =>
    obtain ⟨count, -, hgrid⟩ := List.exists_of_findSome?_eq_some hfound
    exact toFloat_of_onGrid hgrid

theorem digits_shortest_pos {v : Float} (hpos : 0 < v.toBits.toNat)
    (hlt : v.toBits.toNat < infinityBits) : 0 < (shortest v).digits := by
  rw [Nat.pos_iff_ne_zero]
  intro hzero
  have hread := toFloat_shortest hpos hlt
  rw [toFloat, if_pos hzero] at hread
  rw [← hread, toBits_zero] at hpos
  exact absurd hpos (by decide)

end Decimal
end GraphCalc
