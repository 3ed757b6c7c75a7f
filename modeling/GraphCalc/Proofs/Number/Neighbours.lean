import GraphCalc.Proofs.Number.Arithmetic

/-! # Neighbours in the order of doubles

The double after another one is found by a step on the bits, away from zero or towards it. In ranks
this is always one step up, also across zero and into infinity. Main statements:

* `rank_neg`: the opposite double has the opposite rank;
* `rank_next`, `rank_previous`: a neighbour is one rank away.
-/

namespace GraphCalc.Binary64
open Float.Model Float.Model.UnpackedFloat
set_option autoImplicit false

variable {v : Float}

/-! ## Opposite doubles -/

theorem apply_neg (s : Sign) (n : ℕ) : (-s).apply n = -s.apply n := by
  cases s
  · exact (neg_neg (n : ℤ)).symm
  · rfl

theorem toNat_neg (h : v.isNaN = false) :
    (-v).toBits.toNat = signBits (-signOf v.toBits.toNat) + magnitude v := by
  have hpacks : Packs (-v) v.toModel.unpack.neg := rfl
  have hle := magnitude_le h
  rcases unpack_forms v with ⟨h0, hu⟩ | ⟨m, e, hpos, hc, h0, hu⟩ | ⟨h0, hu⟩ | ⟨h0, -⟩
  · rw [hpacks.toNat, hu, h0, UnpackedFloat.neg, pack_zero_toNat, Nat.add_zero]
  · rw [hpacks.toNat, hu, h0, UnpackedFloat.neg, pack_finite_toNat _ hpos hc.lt hc.least hc.full,
      ← fieldBits, min_eq_right hc.lt_infinityBits.le]
  · rw [hpacks.toNat, hu, h0, UnpackedFloat.neg, pack_infinity_toNat]
  · omega

theorem rank_neg (h : v.isNaN = false) : (-v).isNaN = false ∧ rank (-v) = -rank v := by
  obtain ⟨hnan, hrank⟩ := rank_of_toNat (toNat_neg h) (magnitude_le h)
  exact ⟨hnan, hrank.trans (apply_neg _ _)⟩

/-! ## Neighbours -/

theorem toNat_of_isNegative (h : isNegative v = true) :
    v.toBits.toNat = 2 ^ 63 + magnitude v ∧ rank v = -magnitude v := by
  have hlt := v.toBits.toNat_lt
  rw [isNegative_iff] at h
  refine ⟨by rw [magnitude]; omega, ?_⟩
  rw [rank, signOf, if_neg (Nat.not_lt.mpr h)]
  rfl

theorem toNat_of_not_isNegative (h : isNegative v = false) :
    v.toBits.toNat = magnitude v ∧ rank v = magnitude v := by
  have hmag := magnitude_of_not_isNegative h
  rw [Bool.eq_false_iff, ne_eq, isNegative_iff, Nat.not_le] at h
  refine ⟨hmag.symm, ?_⟩
  rw [rank, signOf, if_pos h]
  rfl

theorem rank_ofBits {b : UInt64} {s : Sign} {n : ℕ} (h : b.toNat = signBits s + n)
    (hn : n ≤ infinityBits) :
    (Float.ofBits b).isNaN = false ∧ rank (Float.ofBits b) = s.apply n := by
  have hmod : b.toNat % 2 ^ 63 ≤ infinityBits := by
    unfold infinityBits at *
    rw [h]
    cases s <;> simp only [signBits] <;> omega
  exact rank_of_toNat ((congrArg UInt64.toNat (toBits_ofBits hmod)).trans h) hn

theorem beq_infinity (hlt : rank v < infinityBits) : (v == infinity) = false := by
  have hrank : rank infinity = infinityBits := by decide
  rw [← Bool.not_eq_true, beq_iff]
  omega

theorem rank_next (h : v.isNaN = false) (hlt : rank v < infinityBits) :
    (next v).isNaN = false ∧ rank (next v) = rank v + 1 := by
  have hle := magnitude_le h
  have hone : (1 : UInt64).toNat = 1 := rfl
  rw [next, h, beq_infinity hlt, Bool.or_self, if_neg Bool.false_ne_true]
  unfold infinityBits at hlt hle
  by_cases hzero : (v == 0.0) = true
  · have hrank : rank v = 0 := by
      rw [← Int.natAbs_eq_zero, natAbs_rank]
      exact beq_zero_iff.mp hzero
    rw [if_pos hzero, hrank]
    decide
  · rw [if_neg hzero]
    rw [beq_zero_iff] at hzero
    cases hsign : isNegative v with
    | true =>
      -- a step towards zero
      obtain ⟨hbits, hrank⟩ := toNat_of_isNegative hsign
      have hstep : (v.toBits - 1).toNat = signBits .negative + (magnitude v - 1) := by
        rw [UInt64.toNat_sub_of_le _ _ (UInt64.le_iff_toNat_le.mpr (by omega)), hone, hbits,
          signBits]
        omega
      obtain ⟨hnan', hrank'⟩ := rank_ofBits hstep (by rw [infinityBits]; omega)
      rw [if_pos rfl]
      refine ⟨hnan', hrank'.trans ?_⟩
      rw [hrank, Sign.apply]
      omega
    | false =>
      obtain ⟨hbits, hrank⟩ := toNat_of_not_isNegative hsign
      have hstep : (v.toBits + 1).toNat = signBits .positive + (magnitude v + 1) := by
        rw [UInt64.toNat_add, hone, hbits, signBits]
        omega
      obtain ⟨hnan', hrank'⟩ := rank_ofBits hstep (by rw [infinityBits]; omega)
      rw [if_neg Bool.false_ne_true]
      refine ⟨hnan', hrank'.trans ?_⟩
      rw [hrank, Sign.apply]
      omega

theorem rank_previous (h : v.isNaN = false) (hlt : -infinityBits < rank v) :
    (previous v).isNaN = false ∧ rank (previous v) = rank v - 1 := by
  obtain ⟨hnan, hrank⟩ := rank_neg h
  obtain ⟨hnan', hrank'⟩ := rank_next hnan (by omega)
  obtain ⟨hnan'', hrank''⟩ := rank_neg hnan'
  refine ⟨hnan'', ?_⟩
  rw [previous, hrank'', hrank', hrank]
  omega

end GraphCalc.Binary64
