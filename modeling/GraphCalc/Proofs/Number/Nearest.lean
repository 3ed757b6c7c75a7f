import GraphCalc.Proofs.Number.Order
import GraphCalc.Proofs.Number.Rounding

/-! # The double nearest to a number

Rounding never swaps two numbers, and it leaves alone what is a double already. With these two facts
an order between exact numbers becomes one between doubles. Main notions and statements:

* `value`: the exact number that a finite double stands for;
* `nearestRank`: the rank of the double nearest to a number;
* `nearestRank_mono`: of two numbers the larger one has the larger nearest double;
* `nearestRank_value`: the double nearest to the number of a double is that double;
* `value_le_value`: finite doubles are ordered as their numbers are.
-/

namespace GraphCalc.Binary64
open Float.Model Float.Model.UnpackedFloat
set_option autoImplicit false

/-! ## Rounding keeps the order -/

theorem roundQuotient_le_succ (n d : ℕ) : roundQuotient n d ≤ n / d + 1 := by
  unfold roundQuotient
  dsimp only
  split
  · exact Nat.le_succ _
  · split
    · exact le_rfl
    · split
      · exact Nat.le_succ _
      · exact le_rfl

theorem roundQuotient_mono_left {m n d : ℕ} (h : m ≤ n) :
    roundQuotient m d ≤ roundQuotient n d := by
  rcases (Nat.div_le_div_right h : m / d ≤ n / d).lt_or_eq with hlt | heq
  · exact le_trans (roundQuotient_le_succ m d) (le_trans hlt (le_roundQuotient n d))
  · have hmod : m % d ≤ n % d := by
      have hm := Nat.div_add_mod m d
      have hn := Nat.div_add_mod n d
      rw [heq] at hm
      omega
    unfold roundQuotient
    rw [heq]
    dsimp only
    split_ifs <;> omega

theorem roundQuotient_mono {m d n c : ℕ} (hd : 0 < d) (hc : 0 < c) (h : m * c ≤ n * d) :
    roundQuotient m d ≤ roundQuotient n c := by
  rw [← roundQuotient_mul c m d hc, ← roundQuotient_mul d n c hd, Nat.mul_comm c m,
    Nat.mul_comm d n, Nat.mul_comm c d]
  exact roundQuotient_mono_left h

theorem roundQuotient_congr {n d n' d' : ℕ} (hd : 0 < d) (hd' : 0 < d')
    (h : (n / d : ℚ) = n' / d') : roundQuotient n d = roundQuotient n' d' := by
  rw [div_eq_div_iff (by positivity) (by positivity)] at h
  have hcross : n * d' = n' * d := by exact_mod_cast h
  exact le_antisymm (roundQuotient_mono hd hd' hcross.le) (roundQuotient_mono hd' hd hcross.ge)

/-! ## The nearest double -/

/-- A quotient counted in last places, as the quotient that is rounded. -/
theorem scaled_div (num den : ℕ) (place : ℤ) :
    ((num * 2 ^ (-place).toNat : ℕ) : ℚ) / (den * 2 ^ place.toNat : ℕ) =
      num / den / 2 ^ place := by
  rw [div_eq_mul_inv (num / den : ℚ), ← zpow_neg]
  have hpow := zpow_eq_div 2 (-place)
  push_cast at hpow ⊢
  rw [hpow, neg_neg]
  ring

/-- The bits of the double nearest to the magnitude of a number. -/
def nearestBits (q : ℚ) : ℕ := ratioBits q.num.natAbs q.den

/-- The rank of the double nearest to a number. -/
def nearestRank (q : ℚ) : ℤ := if q < 0 then -(nearestBits q : ℤ) else nearestBits q

/-- The exponent of the last place of the doubles around a number. -/
def placeOf (q : ℚ) : ℤ := max (-1074) (Int.log 2 q - 52)

theorem natAbs_num_div_den {q : ℚ} (h : 0 ≤ q) : (q.num.natAbs / q.den : ℚ) = q := by
  rw [Nat.cast_natAbs, abs_of_nonneg (Rat.num_nonneg.mpr h), Rat.num_div_den]

theorem nearestBits_div (num : ℕ) {den : ℕ} (hd : 0 < den) :
    nearestBits (num / den) = ratioBits num den := by
  set q : ℚ := num / den with hq
  have hcross : q.num.natAbs * den = num * q.den := by
    have h : (q.num.natAbs / q.den : ℚ) = num / den := natAbs_num_div_den (by positivity)
    rw [div_eq_div_iff (by exact_mod_cast q.den_nz) (by positivity)] at h
    exact_mod_cast h
  unfold nearestBits
  rw [← ratioBits_mul q.den_pos hd, ← @ratioBits_mul num den q.den hd q.den_pos,
    Nat.mul_comm den, hcross, Nat.mul_comm num, Nat.mul_comm den]

theorem nearestBits_le (q : ℚ) : nearestBits q ≤ infinityBits := ratioBits_le _ _

section Places
variable {q : ℚ} {n d : ℕ}

theorem exists_counted (hq : 0 < q) : ∃ n d : ℕ, 0 < d ∧ q / 2 ^ placeOf q = n / d :=
  ⟨_, _, Rat.den_pos _, (natAbs_num_div_den (by positivity)).symm⟩

/-- The bits of the nearest double: the number counted in its last places, below the exponent. -/
theorem nearestBits_eq (hq : 0 < q) (hd : 0 < d) (h : q / 2 ^ placeOf q = n / d) :
    nearestBits q = min infinityBits ((placeOf q + 1074).toNat * 2 ^ 52 + roundQuotient n d) := by
  have hnum : 0 < q.num.natAbs := Int.natAbs_pos.mpr (Rat.num_pos.mpr hq).ne'
  have hden := q.den_pos
  have hself := natAbs_num_div_den hq.le
  have hplace : lastPlace q.num.natAbs q.den = placeOf q := by
    rw [lastPlace_eq hnum hden, hself]
    rfl
  rw [nearestBits, ratioBits_eq hnum hplace]
  congr 2
  refine roundQuotient_congr (by positivity) hd ?_
  rw [scaled_div, hself, h]

/-- Counted in its last places a number has 53 bits at most. -/
theorem roundQuotient_le (hd : 0 < d) (h : q / 2 ^ placeOf q = n / d) :
    roundQuotient n d ≤ 2 ^ 53 := by
  have hlog := Int.lt_zpow_succ_log_self (b := 2) (by decide) q
  have hlt : q / 2 ^ placeOf q < 2 ^ (53 : ℤ) := by
    rw [div_lt_iff₀ (by positivity), ← zpow_add₀ (by decide)]
    push_cast at hlog
    refine lt_of_lt_of_le hlog (zpow_le_zpow_right₀ (by norm_num) ?_)
    unfold placeOf
    omega
  rw [h, div_lt_iff₀ (by exact_mod_cast hd), zpow_ofNat] at hlt
  refine le_trans (roundQuotient_le_succ _ _) ?_
  rw [Nat.succ_le_iff, Nat.div_lt_iff_lt_mul hd]
  exact_mod_cast hlt

/-- Above the least place it has all of them. -/
theorem le_roundQuotient_of_full (hq : 0 < q) (hd : 0 < d) (h : q / 2 ^ placeOf q = n / d)
    (hplace : -1074 < placeOf q) : 2 ^ 52 ≤ roundQuotient n d := by
  have hlog := Int.zpow_log_le_self (b := 2) (by decide) hq
  have hle : (2 : ℚ) ^ (52 : ℤ) ≤ q / 2 ^ placeOf q := by
    rw [le_div_iff₀ (by positivity), ← zpow_add₀ (by decide)]
    push_cast at hlog
    refine le_trans (zpow_le_zpow_right₀ (by norm_num) ?_) hlog
    unfold placeOf at hplace ⊢
    omega
  rw [h, le_div_iff₀ (by exact_mod_cast hd), zpow_ofNat] at hle
  refine le_trans ?_ (le_roundQuotient _ _)
  rw [Nat.le_div_iff_mul_le hd]
  exact_mod_cast hle

end Places

theorem nearestBits_mono {p q : ℚ} (hp : 0 ≤ p) (h : p ≤ q) : nearestBits p ≤ nearestBits q := by
  rcases hp.lt_or_eq with hp | rfl
  swap
  · exact Nat.zero_le _
  have hq := hp.trans_le h
  obtain ⟨n, d, hd, hcount⟩ := exists_counted hp
  obtain ⟨n', d', hd', hcount'⟩ := exists_counted hq
  have hplace : placeOf p ≤ placeOf q :=
    max_le_max_left _ (sub_le_sub_right (Int.log_mono_right hp h) 52)
  rw [nearestBits_eq hp hd hcount, nearestBits_eq hq hd' hcount']
  refine min_le_min_left _ ?_
  rcases hplace.lt_or_eq with hlt | heq
  · -- in a larger place the rounded count has its top bit, which the carry cannot pass
    have hleast : -1074 ≤ placeOf p := le_max_left _ _
    have h1 := roundQuotient_le hd hcount
    have h2 := le_roundQuotient_of_full hq hd' hcount' (hleast.trans_lt hlt)
    omega
  · rw [heq]
    refine Nat.add_le_add_left (roundQuotient_mono hd hd' ?_) _
    have hle : (n / d : ℚ) ≤ n' / d' := by
      rw [← hcount, ← hcount', heq]
      exact div_le_div_of_nonneg_right h (by positivity)
    rw [div_le_div_iff₀ (by positivity) (by positivity)] at hle
    exact_mod_cast hle

theorem nearestBits_of_large {q : ℚ} (hq : 0 < q) (h : 1024 ≤ Int.log 2 q) :
    nearestBits q = infinityBits := by
  obtain ⟨n, d, hd, hcount⟩ := exists_counted hq
  have hplace : 972 ≤ placeOf q := by
    unfold placeOf
    omega
  have hfull := le_roundQuotient_of_full hq hd hcount (by omega)
  rw [nearestBits_eq hq hd hcount, infinityBits]
  omega

theorem nearestBits_neg (q : ℚ) : nearestBits (-q) = nearestBits q := by
  simp [nearestBits]

theorem nearestRank_of_nonneg {q : ℚ} (h : 0 ≤ q) : nearestRank q = nearestBits q :=
  if_neg (not_lt.mpr h)

theorem nearestRank_zero : nearestRank 0 = 0 := rfl

theorem nearestRank_neg (q : ℚ) : nearestRank (-q) = -nearestRank q := by
  rcases lt_trichotomy q 0 with h | rfl | h
  · rw [nearestRank_of_nonneg (by linarith), nearestRank, if_pos h, nearestBits_neg, neg_neg]
  · rfl
  · rw [nearestRank, if_pos (by linarith), nearestRank_of_nonneg h.le, nearestBits_neg]

theorem nearestRank_mono {p q : ℚ} (h : p ≤ q) : nearestRank p ≤ nearestRank q := by
  rcases le_or_gt 0 p with hp | hp
  · rw [nearestRank_of_nonneg hp, nearestRank_of_nonneg (hp.trans h)]
    exact_mod_cast nearestBits_mono hp h
  · rw [nearestRank, if_pos hp]
    rcases le_or_gt 0 q with hq | hq
    · rw [nearestRank_of_nonneg hq]
      omega
    · rw [nearestRank, if_pos hq, neg_le_neg_iff, ← nearestBits_neg q, ← nearestBits_neg p]
      exact_mod_cast nearestBits_mono (by linarith) (neg_le_neg h)

/-- A sign as a factor. -/
def unit : Sign → ℚ
  | .positive => 1
  | .negative => -1

theorem nearestRank_unit (s : Sign) {q : ℚ} (h : 0 ≤ q) :
    nearestRank (unit s * q) = s.apply (nearestBits q) := by
  cases s with
  | positive => rw [unit, one_mul, nearestRank_of_nonneg h, Sign.apply]
  | negative => rw [unit, neg_one_mul, nearestRank_neg, nearestRank_of_nonneg h, Sign.apply]

/-! ## The numbers of doubles -/

/-- The number that an unpacked form stands for. Infinities and the undefined value stand for none. -/
def formValue : UnpackedFloat → ℚ
  | .finite s m e _ => unit s * (m * 2 ^ e)
  | _ => 0

/-- The number that a finite double stands for. -/
def value (v : Float) : ℚ := formValue v.toModel.unpack

theorem nearestBits_canonical {m : ℕ} {e : ℤ} (h : Canonical m e) :
    nearestBits (m * 2 ^ e) = fieldBits m e := by
  have hq : (m * 2 ^ e : ℚ) = (m * 2 ^ e.toNat : ℕ) / (2 ^ (-e).toNat : ℕ) := by
    have hpow := zpow_eq_div 2 e
    push_cast at hpow ⊢
    rw [hpow]
    ring
  rw [hq, nearestBits_div _ (by positivity), ratioBits_scaled h.pos h.lt h.least h.greatest h.full]
  rfl

section Finite
variable {v w : Float}

theorem finite_forms (h : v.isFinite = true) :
    (∃ s, v.toModel.unpack = .zero s) ∨
    ∃ s m e hpos, Canonical m e ∧ v.toModel.unpack = .finite s m e hpos := by
  rw [isFinite_iff] at h
  rcases unpack_forms v with ⟨-, hu⟩ | ⟨m, e, hpos, hc, -, hu⟩ | ⟨h0, -⟩ | ⟨h0, -⟩
  · exact .inl ⟨_, hu⟩
  · exact .inr ⟨_, m, e, hpos, hc, hu⟩
  · omega
  · omega

theorem nearestRank_value (h : v.isFinite = true) : nearestRank (value v) = rank v := by
  rw [← (isNumber_unpack (isNaN_of_isFinite h)).2, value]
  rcases finite_forms h with ⟨s, hu⟩ | ⟨s, m, e, hpos, hc, hu⟩
  · rw [hu]
    rfl
  · rw [hu, formValue, nearestRank_unit s (by positivity), nearestBits_canonical hc]
    rfl

theorem eq_of_rank_eq (h : rank v = rank w) (hne : rank v ≠ 0) : v = w := by
  have hsigns : signOf v.toBits.toNat = signOf w.toBits.toNat ∧ magnitude v = magnitude w := by
    unfold rank at h hne
    generalize magnitude v = m at *
    generalize magnitude w = n at *
    generalize signOf v.toBits.toNat = s at *
    generalize signOf w.toBits.toNat = t at *
    cases s <;> cases t <;> simp only [Sign.apply] at h hne <;>
      first | exact ⟨rfl, by omega⟩ | omega
  obtain ⟨hsign, hmag⟩ := hsigns
  apply toBits_injective
  apply UInt64.toNat_inj.mp
  have h1 := v.toBits.toNat_lt
  have h2 := w.toBits.toNat_lt
  unfold magnitude at hmag
  unfold signOf at hsign
  split at hsign <;> split at hsign <;> first | omega | cases hsign

theorem rank_eq_zero_iff : rank v = 0 ↔ magnitude v = 0 := by
  rw [← natAbs_rank, Int.natAbs_eq_zero]

theorem value_of_unpack_zero {s : Sign} (h : v.toModel.unpack = .zero s) : value v = 0 := by
  rw [value, h]
  rfl

theorem value_of_magnitude_zero (h : magnitude v = 0) : value v = 0 := by
  have hinf : 0 < infinityBits := by decide
  rcases unpack_forms v with ⟨-, hu⟩ | ⟨m, e, -, hc, h0, -⟩ | ⟨h0, -⟩ | ⟨h0, -⟩
  · exact value_of_unpack_zero hu
  · have := hc.fieldBits_pos
    omega
  · omega
  · omega

theorem value_le_value (hv : v.isFinite = true) (hw : w.isFinite = true) (h : rank v ≤ rank w) :
    value v ≤ value w := by
  by_contra hlt
  have hge := nearestRank_mono (not_le.mp hlt).le
  rw [nearestRank_value hv, nearestRank_value hw] at hge
  have heq := le_antisymm h hge
  refine hlt (le_of_eq ?_)
  -- the rank tells doubles apart, except for the two zeros
  rcases eq_or_ne (rank v) 0 with h0 | hne
  · rw [value_of_magnitude_zero (rank_eq_zero_iff.mp h0),
      value_of_magnitude_zero (rank_eq_zero_iff.mp (heq ▸ h0))]
  · rw [eq_of_rank_eq heq hne]

end Finite
end GraphCalc.Binary64
