import GraphCalc.Proofs.Number.Middle

/-! # Grids

The places of a grid are computed as `a + i * h`, from a first place and a step, with two roundings.
Rounding keeps their order, also where it reaches infinity. Main statements:

* `add_le_add_of_nonneg`: sums are ordered as the summands, which may be infinite;
* `step_finite`, `step_nonneg`: the step that divides an interval into equal parts;
* `place_le`, `le_place`: the places of a grid are in order, the first place in front;
* `pairwise_places`: so is the list of them;
* `place_zero`: the first place is where it is meant to be.
-/

namespace GraphCalc.Binary64
open Float.Model Float.Model.UnpackedFloat
set_option autoImplicit false

variable {a h v w : Float} {i j : ℕ}

/-! ## Infinite summands -/

theorem rank_le_infinityBits (hv : v.isNaN = false) : rank v ≤ infinityBits := by
  have hle := magnitude_le hv
  have habs := natAbs_rank v
  omega

theorem rank_eq_infinityBits (hv : 0.0 ≤ v) (hfinite : v.isFinite = false) :
    rank v = infinityBits := by
  have hrank : 0 ≤ rank v := (le_iff.mp hv).2.2
  have hle := rank_le_infinityBits (le_iff.mp hv).2.1
  rw [Bool.eq_false_iff, ne_eq, isFinite_iff_rank] at hfinite
  omega

/-- A finite summand does not count beside infinity. -/
theorem add_infinity (ha : a.isFinite = true) (hv : rank v = infinityBits) (hnan : v.isNaN = false) :
    (a + v).isNaN = false ∧ rank (a + v) = infinityBits := by
  have hinf : 0 < infinityBits := by decide
  have hform : v.toModel.unpack = .infinity .positive := by
    have hmag := natAbs_rank v
    have hle := magnitude_le hnan
    rcases unpack_forms v with ⟨h0, -⟩ | ⟨m, e, -, hc, h0, -⟩ | ⟨-, hu⟩ | ⟨h0, -⟩
    · omega
    · have := hc.lt_infinityBits
      omega
    · rw [rank] at hv
      generalize signOf v.toBits.toNat = s at hu hv
      cases s with
      | positive => exact hu
      | negative =>
        simp only [Sign.apply] at hv
        omega
    · omega
  have hpacks : Packs (a + v) (.infinity .positive) := by
    have hsum : Packs (a + v) (UnpackedFloat.add Format.binary64 a.toModel.unpack v.toModel.unpack) :=
      rfl
    rcases finite_forms ha with ⟨s, hu⟩ | ⟨s, m, e, hpos, -, hu⟩
    · rwa [hu, hform] at hsum
    · rwa [hu, hform] at hsum
  exact rank_of_toNat (s := .positive) (hpacks.toNat.trans (pack_infinity_toNat _)) le_rfl

theorem add_le_add_of_nonneg (ha : a.isFinite = true) (hv : 0.0 ≤ v) (hle : v ≤ w) :
    a + v ≤ a + w := by
  have hnan : v.isNaN = false ∧ w.isNaN = false := ⟨(le_iff.mp hle).1, (le_iff.mp hle).2.1⟩
  cases hw : w.isFinite with
  | true =>
    have hv' := isFinite_of_between (by decide) hw hv hle
    exact (isNearest_add ha hv').le (isNearest_add ha hw)
      (add_le_add_right (value_le_value hv' hw (le_iff.mp hle).2.2) _)
  | false =>
    obtain ⟨hnan', hrank⟩ := add_infinity ha (rank_eq_infinityBits (le_trans_of hv hle) hw) hnan.2
    have hsum : (a + v).isNaN = false := by
      cases hv' : v.isFinite with
      | true => exact (isNearest_add ha hv').isNaN
      | false => exact (add_infinity ha (rank_eq_infinityBits hv hv') hnan.1).1
    exact le_iff.mpr ⟨hsum, hnan', hrank ▸ rank_le_infinityBits hsum⟩

/-! ## Numbers of places -/

theorem ofNat_finite (hij : i ≤ j) (hj : (Float.ofNat j).isFinite = true) :
    (Float.ofNat i).isFinite = true :=
  isFinite_of_between (by decide) hj (isNearest_zero.le (isNearest_ofNat i) (Nat.cast_nonneg i))
    ((isNearest_ofNat i).le (isNearest_ofNat j) (Nat.cast_le.mpr hij))

theorem ofNat_value_nonneg (hi : (Float.ofNat i).isFinite = true) : 0 ≤ value (Float.ofNat i) := by
  rw [← value_zero]
  exact isNearest_zero.value_le (isNearest_ofNat i) (by decide) hi (Nat.cast_nonneg i)

theorem one_le_ofNat_value (hpos : 0 < i) (hi : (Float.ofNat i).isFinite = true) :
    1 ≤ value (Float.ofNat i) := by
  have hone : value (Float.ofNat 1) = 1 := by
    have hu : (Float.ofNat 1).toModel.unpack = .finite .positive (2 ^ 52) (-52) (by decide) := by rfl
    rw [value, hu, formValue, unit]
    norm_num
  rw [← hone]
  exact (isNearest_ofNat 1).value_le (isNearest_ofNat i) (by decide) hi (Nat.cast_le.mpr hpos)

/-! ## Steps -/

section Steps
variable {b : Float} (hwidth : (b - a).isFinite = true) (hle : value a ≤ value b) (hpos : 0 < i)
  (hi : (Float.ofNat i).isFinite = true)
include hwidth

theorem width_nonneg (hle : value a ≤ value b) : 0 ≤ value (b - a) := by
  obtain ⟨hb, ha⟩ := isFinite_of_isFinite_sub hwidth
  rw [← value_zero]
  exact isNearest_zero.value_le (isNearest_sub hb ha) (by decide) hwidth (sub_nonneg.mpr hle)

include hpos hi

theorem isNearest_step :
    IsNearest ((b - a) / Float.ofNat i) (value (b - a) / value (Float.ofNat i)) :=
  isNearest_div hwidth hi (zero_lt_one.trans_le (one_le_ofNat_value hpos hi)).ne'

include hle

/-- A step is not wider than all of them together. -/
theorem step_finite : ((b - a) / Float.ofNat i).isFinite = true := by
  have hone := one_le_ofNat_value hpos hi
  have hnonneg := width_nonneg hwidth hle
  have hnear := isNearest_step hwidth hpos hi
  exact isFinite_of_between (by decide) hwidth
    (isNearest_zero.le hnear (div_nonneg hnonneg (zero_le_one.trans hone)))
    (hnear.le (isNearest_value hwidth) (div_le_self hnonneg hone))

theorem step_nonneg : 0 ≤ value ((b - a) / Float.ofNat i) := by
  rw [← value_zero]
  exact isNearest_zero.value_le (isNearest_step hwidth hpos hi) (by decide)
    (step_finite hwidth hle hpos hi)
    (div_nonneg (width_nonneg hwidth hle) (zero_le_one.trans (one_le_ofNat_value hpos hi)))

end Steps

/-! ## Places -/

section Places
variable (ha : a.isFinite = true) (hh : h.isFinite = true) (hstep : 0 ≤ value h)
include hh hstep

theorem offset_nonneg (hi : (Float.ofNat i).isFinite = true) : 0.0 ≤ Float.ofNat i * h :=
  isNearest_zero.le (isNearest_mul hi hh) (mul_nonneg (ofNat_value_nonneg hi) hstep)

theorem offset_le (hij : i ≤ j) (hj : (Float.ofNat j).isFinite = true) :
    Float.ofNat i * h ≤ Float.ofNat j * h :=
  have hi := ofNat_finite hij hj
  have hle := (isNearest_ofNat i).value_le (isNearest_ofNat j) hi hj (Nat.cast_le.mpr hij)
  (isNearest_mul hi hh).le (isNearest_mul hj hh) (mul_le_mul_of_nonneg_right hle hstep)

include ha

theorem place_le (hij : i ≤ j) (hj : (Float.ofNat j).isFinite = true) :
    a + Float.ofNat i * h ≤ a + Float.ofNat j * h :=
  add_le_add_of_nonneg ha (offset_nonneg hh hstep (ofNat_finite hij hj)) (offset_le hh hstep hij hj)

theorem le_place (hi : (Float.ofNat i).isFinite = true) : a ≤ a + Float.ofNat i * h := by
  have hzero : a ≤ a + 0.0 := (isNearest_value ha).le (isNearest_add ha (by decide))
    (by rw [value_zero, add_zero])
  exact le_trans_of hzero (add_le_add_of_nonneg ha (by decide) (offset_nonneg hh hstep hi))

end Places

theorem pairwise_places {place : ℕ → Float} {n : ℕ}
    (hplace : ∀ {i j}, i ≤ j → j ≤ n → place i ≤ place j) :
    ((List.range (n + 1)).map place).Pairwise (· ≤ ·) := by
  rw [List.pairwise_map]
  refine List.pairwise_lt_range.imp_of_mem fun _ hj hlt => ?_
  exact hplace hlt.le (Nat.lt_succ_iff.mp (List.mem_range.mp hj))

theorem place_zero (ha : a.isFinite = true) (hh : h.isFinite = true) :
    (a + Float.ofNat 0 * h == a) = true := by
  have hoffset := isNearest_mul (v := Float.ofNat 0) (by decide) hh
  have hzero : value (Float.ofNat 0) = 0 := value_of_magnitude_zero (by decide)
  rw [hzero, zero_mul] at hoffset
  have hmagnitude : magnitude (Float.ofNat 0 * h) = 0 := rank_eq_zero_iff.mp hoffset.rank
  have hfinite : (Float.ofNat 0 * h).isFinite = true := by
    rw [isFinite_iff, hmagnitude]
    decide
  have hsum := isNearest_add ha hfinite
  rw [value_of_magnitude_zero hmagnitude, add_zero] at hsum
  exact beq_iff.mpr ⟨hsum.isNaN, isNaN_of_isFinite ha, hsum.rank.trans (nearestRank_value ha)⟩

end GraphCalc.Binary64
