import GraphCalc.Eval.Engine
import GraphCalc.Proofs.Number.Accuracy
import GraphCalc.Proofs.Number.Grid
import GraphCalc.Proofs.Quadrature.Samples

/-! # The ends of an integral

On doubles the cuts between two bounds start at the lower bound and are in order, but the last one is
computed like all others and is the upper bound up to rounding only. It can lie beyond that bound, and
then the integrand is sampled outside the interval. Main notions and statements:

* `Partition`: bounds and a number of parts that are doubles, as is the width;
* `Partition.cut_le`, `Partition.le_cut`: the cuts are in order, the lower bound in front;
* `Partition.abs_cut_last_sub_le`: the last cut is the upper bound, up to rounding;
* `cuts_between`: when all samples are inside the interval, and what follows for the integral;
* `last_cut_is_behind_end`: an interval that is sampled behind its end.
-/

namespace GraphCalc.Quadrature
open Binary64
set_option autoImplicit false

section Doubles
variable {a b : Float} {intervals : ℤ} {m : ℕ}

/-- An interval from left to right in an even number of parts; its bounds, its width and the number of
parts are doubles. -/
structure Partition (intervals : ℤ) (m : ℕ) (a b : Float) : Prop where
  left : a.isFinite = true
  right : b.isFinite = true
  width : (b - a).isFinite = true
  ordered : value a ≤ value b
  count : evenCount intervals = (2 * m : ℕ)
  positive : 0 < m
  parts : (Float.ofNat (2 * m)).isFinite = true

namespace Partition
variable (h : Partition intervals m a b)
include h

theorem parts_pos : 0 < value (Float.ofNat (2 * m)) :=
  zero_lt_one.trans_le (one_le_ofNat_value (Nat.mul_pos two_pos h.positive) h.parts)

theorem partWidth_eq : partWidth intervals a b = (b - a) / Float.ofNat (2 * m) := by
  unfold partWidth
  rw [h.count]
  rfl

theorem isNearest_partWidth :
    IsNearest (partWidth intervals a b) (value (b - a) / value (Float.ofNat (2 * m))) := by
  rw [h.partWidth_eq]
  exact isNearest_step h.width (Nat.mul_pos two_pos h.positive) h.parts

theorem partWidth_finite : (partWidth intervals a b).isFinite = true := by
  rw [h.partWidth_eq]
  exact step_finite h.width h.ordered (Nat.mul_pos two_pos h.positive) h.parts

theorem partWidth_nonneg : 0 ≤ value (partWidth intervals a b) := by
  rw [h.partWidth_eq]
  exact step_nonneg h.width h.ordered (Nat.mul_pos two_pos h.positive) h.parts

theorem cut_le {i j : ℕ} (hij : i ≤ j) (hj : j ≤ 2 * m) :
    cut intervals a b i ≤ cut intervals a b j :=
  place_le h.left h.partWidth_finite h.partWidth_nonneg hij (ofNat_finite hj h.parts)

theorem le_cut {i : ℕ} (hi : i ≤ 2 * m) : a ≤ cut intervals a b i :=
  le_place h.left h.partWidth_finite h.partWidth_nonneg (ofNat_finite hi h.parts)

theorem cut_zero : (cut intervals a b 0 == a) = true := place_zero h.left h.partWidth_finite

theorem cuts_eq : cuts intervals a b = (List.range (2 * m + 1)).map (cut intervals a b) := by
  have hparts : Scalar.isFinite (Scalar.ofInt (evenCount intervals) : Float) = true := by
    rw [h.count]
    exact h.parts
  have hcount : ((2 * m : ℕ) + 1 : ℤ).toNat = 2 * m + 1 := by omega
  rw [cuts, if_pos hparts, h.count, hcount]

/-! ## The last cut -/

theorem abs_parts_mul_sub_le :
    |value (Float.ofNat (2 * m)) * value (partWidth intervals a b) - value (b - a)| ≤
      unitRoundoff * value (b - a) + value (Float.ofNat (2 * m)) * halfLeast := by
  have hparts := h.parts_pos
  have herror := abs_value_sub_le h.isNearest_partWidth h.partWidth_finite
  rw [abs_of_nonneg (div_nonneg (width_nonneg h.width h.ordered) hparts.le)] at herror
  calc |value (Float.ofNat (2 * m)) * value (partWidth intervals a b) - value (b - a)|
      = value (Float.ofNat (2 * m)) *
          |value (partWidth intervals a b) - value (b - a) / value (Float.ofNat (2 * m))| := by
        rw [← abs_of_pos hparts, ← abs_mul, abs_of_pos hparts, mul_sub, mul_div_cancel₀ _ hparts.ne']
    _ ≤ value (Float.ofNat (2 * m)) *
          (unitRoundoff * (value (b - a) / value (Float.ofNat (2 * m))) + halfLeast) :=
        mul_le_mul_of_nonneg_left herror hparts.le
    _ = unitRoundoff * value (b - a) + value (Float.ofNat (2 * m)) * halfLeast := by
        field_simp

theorem parts_mul_halfLeast_le :
    value (Float.ofNat (2 * m)) * halfLeast ≤ (2 * m + 1) * (1 + unitRoundoff) * halfLeast := by
  -- the number of parts is itself rounded if it is large
  have hcount : |value (Float.ofNat (2 * m)) - (2 * m : ℕ)| ≤
      unitRoundoff * |((2 * m : ℕ) : ℚ)| + halfLeast :=
    abs_value_sub_le (isNearest_ofNat (2 * m)) h.parts
  have hsmall : halfLeast ≤ 1 := zpow_le_one_of_nonpos₀ (by norm_num) (by norm_num)
  rw [Nat.abs_cast] at hcount
  push_cast at hcount
  refine mul_le_mul_of_nonneg_right ?_ halfLeast_pos.le
  linarith [(abs_le.mp hcount).2, unitRoundoff_pos]

theorem halfLeast_le_mul : halfLeast ≤ m * halfLeast :=
  le_mul_of_one_le_left halfLeast_pos.le (by exact_mod_cast h.positive)

theorem abs_offset_sub_le
    (hoffset : (Float.ofNat (2 * m) * partWidth intervals a b).isFinite = true) :
    |value (Float.ofNat (2 * m) * partWidth intervals a b) - (value b - value a)| ≤
      unitRoundoff * (7 / 2 * (value b - value a)) + (2 * m + 2) * (3 / 2 * halfLeast) := by
  have hordered := sub_nonneg.mpr h.ordered
  have hproduct : 0 ≤ value (Float.ofNat (2 * m)) * value (partWidth intervals a b) :=
    mul_nonneg h.parts_pos.le h.partWidth_nonneg
  have hsub := abs_value_sub_le (isNearest_sub h.right h.left) h.width
  have hparts := h.abs_parts_mul_sub_le
  have hprod := abs_value_sub_le (isNearest_mul h.parts h.partWidth_finite) hoffset
  have hcount := h.parts_mul_halfLeast_le
  have hpos := halfLeast_pos
  have hmany := h.halfLeast_le_mul
  rw [abs_of_nonneg hordered] at hsub
  rw [abs_of_nonneg hproduct] at hprod
  -- three roundings in a row: with the unit as a number their bounds add up linearly
  rw [abs_le] at *
  simp only [unitRoundoff] at *
  norm_num at *
  constructor <;> linarith

theorem abs_cut_last_sub_le (hlast : (cut intervals a b (2 * m)).isFinite = true) :
    |value (cut intervals a b (2 * m)) - value b| ≤
      unitRoundoff * (4 * (value b - value a) + |value b|) + (2 * m + 2) * (2 * halfLeast) := by
  have hoffset : (Float.ofNat (2 * m) * partWidth intervals a b).isFinite = true :=
    (isFinite_of_isFinite_add hlast).2
  have hsum : |value (cut intervals a b (2 * m)) -
        (value a + value (Float.ofNat (2 * m) * partWidth intervals a b))| ≤
      unitRoundoff * |value a + value (Float.ofNat (2 * m) * partWidth intervals a b)| + halfLeast :=
    abs_value_sub_le (isNearest_add h.left hoffset) hlast
  have herror := h.abs_offset_sub_le hoffset
  set offset := value (Float.ofNat (2 * m) * partWidth intervals a b)
  set last := value (cut intervals a b (2 * m))
  have hordered := sub_nonneg.mpr h.ordered
  have hpos := halfLeast_pos
  have hmany := h.halfLeast_le_mul
  have hplace : |value a + offset| ≤ |value b| + |offset - (value b - value a)| := by
    have hsplit : value a + offset = value b + (offset - (value b - value a)) := by ring
    rw [hsplit]
    exact abs_add_le _ _
  have htriangle : |last - value b| ≤
      |last - (value a + offset)| + |offset - (value b - value a)| := by
    have hsplit : last - value b = (last - (value a + offset)) + (offset - (value b - value a)) := by
      ring
    rw [hsplit]
    exact abs_add_le _ _
  simp only [unitRoundoff] at *
  norm_num at *
  linarith

end Partition

theorem exists_partition (hlt : a < b) (hwidth : (b - a).isFinite = true) (hcount : 1 ≤ intervals)
    (hparts : (Float.ofInt (evenCount intervals)).isFinite = true) :
    ∃ m, Partition intervals m a b := by
  obtain ⟨m, hm, hn⟩ := evenCount_eq hcount
  obtain ⟨hb, ha⟩ := isFinite_of_isFinite_sub hwidth
  rw [hn] at hparts
  exact ⟨m, ha, hb, hwidth, value_le_value ha hb (lt_iff.mp hlt).2.2.le, hn, hm, hparts⟩

/-! ## Samples inside and outside the interval -/

namespace Partition
variable (h : Partition intervals m a b)
include h

theorem head_cuts {x : Float} (hx : x ∈ (cuts intervals a b).head?) : (x == a) = true := by
  rw [h.cuts_eq, List.range_succ_eq_map, List.map_cons, List.head?_cons] at hx
  rw [← Option.some.inj hx]
  exact h.cut_zero

theorem getLast_cuts {x : Float} (hx : x ∈ (cuts intervals a b).getLast?) :
    x = cut intervals a b (2 * m) := by
  rw [h.cuts_eq, List.range_succ, List.map_append, List.map_singleton, List.getLast?_concat] at hx
  exact (Option.some.inj hx).symm

theorem exists_of_mem_cuts {x : Float} (hx : x ∈ cuts intervals a b) :
    ∃ i ≤ 2 * m, x = cut intervals a b i := by
  rw [h.cuts_eq] at hx
  obtain ⟨i, hi, rfl⟩ := List.mem_map.mp hx
  exact ⟨i, Nat.lt_succ_iff.mp (List.mem_range.mp hi), rfl⟩

theorem pairwise_cuts : (cuts intervals a b).Pairwise (· ≤ ·) := by
  rw [h.cuts_eq]
  exact pairwise_places h.cut_le

theorem cuts_inside_iff : (∀ x ∈ cuts intervals a b, x ≤ b) ↔ cut intervals a b (2 * m) ≤ b := by
  have hlast : cut intervals a b (2 * m) ∈ cuts intervals a b := by
    rw [h.cuts_eq]
    exact List.mem_map_of_mem (List.mem_range.mpr (Nat.lt_succ_self _))
  refine ⟨fun hall => hall _ hlast, fun hle x hx => ?_⟩
  obtain ⟨i, hi, rfl⟩ := h.exists_of_mem_cuts hx
  exact le_trans_of (h.cut_le hi le_rfl) hle

end Partition

variable {ε : Type}

theorem cuts_of_not_isFinite (hparts : (Float.ofInt (evenCount intervals)).isFinite = false) :
    cuts intervals a b = [] := by
  unfold cuts
  rw [if_neg]
  exact Bool.eq_false_iff.mp hparts

/-- The cuts start at the lower bound and are in order. So they stay inside the interval if and only if
the last one does; that is the upper bound, up to rounding. An integral over a function that is defined
inside the interval can be undefined through a cut behind its end only. -/
theorem cuts_between (hlt : a < b) (hwidth : (b - a).isFinite = true) (hcount : 1 ≤ intervals) :
    (∀ x ∈ (cuts intervals a b).head?, (x == a) = true) ∧
    (cuts intervals a b).Pairwise (· ≤ ·) ∧
    (∀ x ∈ cuts intervals a b, a ≤ x) ∧
    (∀ last ∈ (cuts intervals a b).getLast?,
      ((∀ x ∈ cuts intervals a b, x ≤ b) ↔ last ≤ b) ∧
      (last.isFinite = true → |value last - value b| ≤
        unitRoundoff * (4 * (value b - value a) + |value b|) +
          (evenCount intervals + 2) * (2 * halfLeast))) ∧
    ∀ (fault : GridError → ε) (f : Float → Except ε (Option Float)),
      (∀ x, a ≤ x → x ≤ b → Defined (f x)) →
        (Defined (simpson fault intervals f a b) ↔
          (Float.ofInt (evenCount intervals)).isFinite = true ∧
            ∀ x ∈ cuts intervals a b, b < x → Defined (f x)) := by
  cases hparts : (Float.ofInt (evenCount intervals)).isFinite with
  | false =>
    have hnone : cuts intervals a b = [] := cuts_of_not_isFinite hparts
    rw [hnone]
    refine ⟨by simp, List.Pairwise.nil, by simp, by simp, fun fault f _ => ?_⟩
    rw [simpson_defined_iff hcount, hnone]
    exact and_congr (Bool.eq_iff_iff.mp hparts) (by simp)
  | true =>
    obtain ⟨m, h⟩ := exists_partition hlt hwidth hcount hparts
    have hleft (x : Float) (hx : x ∈ cuts intervals a b) : a ≤ x := by
      obtain ⟨i, hi, rfl⟩ := h.exists_of_mem_cuts hx
      exact h.le_cut hi
    refine ⟨fun x => h.head_cuts, h.pairwise_cuts, hleft, fun last hlast => ?_, fun fault f hf => ?_⟩
    · rw [h.getLast_cuts hlast, h.count]
      refine ⟨h.cuts_inside_iff, fun hfinite => ?_⟩
      exact_mod_cast h.abs_cut_last_sub_le hfinite
    · rw [simpson_defined_iff hcount]
      refine and_congr (Bool.eq_iff_iff.mp hparts) ?_
      refine ⟨fun hall x hx _ => hall x hx, fun hbehind x hx => ?_⟩
      have hnan := (le_iff.mp (hleft x hx)).2.1
      rcases le_or_gt (rank x) (rank b) with hle | hgt
      · exact hf x (hleft x hx) (le_iff.mpr ⟨hnan, isNaN_of_isFinite h.right, hle⟩)
      · exact hbehind x hx (lt_iff.mpr ⟨isNaN_of_isFinite h.right, hnan, hgt⟩)

/-! ## A cut behind the end -/

/-- Zero over the distance to a place, undefined at that place. -/
def zeroOver (place x : Float) : Except EvalError (Option Float) :=
  sampleOf (Operator.divide.apply 0.0 (place - x))

theorem zeroOver_defined {place x : Float} (hfinite : (place - x).isFinite = true)
    (hpos : 0.0 < place - x) : Defined (zeroOver place x) := by
  have hne : (place - x == 0.0) = false := by
    rw [Bool.eq_false_iff, ne_eq, beq_iff]
    exact fun heq => (lt_iff.mp hpos).2.2.ne' heq.2.2
  have hvalue : value (place - x) ≠ 0 := fun hzero => by
    have hrank := nearestRank_value hfinite
    rw [hzero, nearestRank_zero] at hrank
    exact (lt_iff.mp hpos).2.2.ne hrank
  have hquotient := isNearest_div (v := 0.0) (by decide) hfinite hvalue
  rw [value_zero, zero_div] at hquotient
  have hdefined : (0.0 / (place - x)).isFinite = true := by
    rw [isFinite_iff_rank, hquotient.rank]
    decide
  refine ⟨0.0 / (place - x), ?_⟩
  unfold zeroOver Operator.apply
  rw [hne]
  show Except.ok (if (0.0 / (place - x)).isFinite then some (0.0 / (place - x)) else none) = _
  rw [if_pos hdefined]

/-- The interval from 0.3 to 0.9 in two parts is sampled behind its end, and an integrand that is defined
on the whole interval has no integral. -/
theorem last_cut_is_behind_end :
    cuts 2 0.3 0.9 = [0.3, 0.6000000000000001, 0.9000000000000001] ∧
    (0.9 : Float) < 0.9000000000000001 ∧
    (∀ x : Float, 0.3 ≤ x → x ≤ 0.9 → Defined (zeroOver 0.9000000000000001 x)) ∧
    ¬ Defined (simpson EvalError.grid 2 (zeroOver 0.9000000000000001) 0.3 0.9) ∧
    (Engine.evaluate "int(0/(0.9000000000000001-x), 0.3, 0.9)" []
      (Engine.fresh { simpsonIntervals := 2 } FunctionTable.empty)).1.toOption.map Float.isNaN =
        some true := by
  have hcuts : cuts 2 0.3 0.9 = [0.3, 0.6000000000000001, 0.9000000000000001] := by decide +kernel
  have hbehind : zeroOver 0.9000000000000001 0.9000000000000001 = .ok none := by decide +kernel
  refine ⟨hcuts, by decide, fun x hlower hupper => ?_, fun hdefined => ?_, by decide +kernel⟩
  · have hx : x.isFinite = true := isFinite_of_between (by decide) (by decide) hlower hupper
    have hnear := isNearest_sub (v := 0.9000000000000001) (by decide) hx
    have hleast : (0.9000000000000001 : Float) - 0.9 ≤ 0.9000000000000001 - x :=
      (isNearest_sub (by decide) (by decide)).le hnear
        (sub_le_sub_left (value_le_value hx (by decide) (le_iff.mp hupper).2.2) _)
    have hgreatest : (0.9000000000000001 : Float) - x ≤ 0.9000000000000001 - 0.3 :=
      hnear.le (isNearest_sub (by decide) (by decide))
        (sub_le_sub_left (value_le_value (by decide) hx (le_iff.mp hlower).2.2) _)
    have hpos : (0.0 : Float) < 0.9000000000000001 - 0.9 := by decide
    exact zeroOver_defined (isFinite_of_between (by decide) (by decide) hleast hgreatest)
      (lt_iff.mpr ⟨(lt_iff.mp hpos).1, hnear.isNaN, (lt_iff.mp hpos).2.2.trans_le (le_iff.mp hleast).2.2⟩)
  · obtain ⟨y, hy⟩ := ((simpson_defined_iff (by decide)).mp hdefined).2 0.9000000000000001
      (by rw [hcuts]; simp)
    rw [hbehind] at hy
    cases hy

/-- The last cut of that interval is behind the end, but not farther than rounding can put it. -/
theorem last_cut_is_close :
    (0.3 : Float) < 0.9 ∧ ((0.9 : Float) - 0.3).isFinite = true ∧ (1 : ℤ) ≤ 2 ∧
    (∀ x ∈ cuts 2 (0.3 : Float) 0.9, 0.3 ≤ x) ∧
    |value 0.9000000000000001 - value 0.9| ≤
      unitRoundoff * (4 * (value 0.9 - value 0.3) + |value 0.9|) + (2 + 2) * (2 * halfLeast) := by
  have hlt : (0.3 : Float) < 0.9 := by decide
  have hwidth : ((0.9 : Float) - 0.3).isFinite = true := by decide
  have hlast : (cuts 2 (0.3 : Float) 0.9).getLast? = some 0.9000000000000001 := by decide +kernel
  have hcount : ((evenCount 2 : ℤ) : ℚ) = 2 := by norm_num [evenCount]
  obtain ⟨-, -, hleft, hclose, -⟩ :=
    cuts_between (ε := EvalError) hlt hwidth (by decide : (1 : ℤ) ≤ 2)
  have hbound := (hclose _ hlast).2 (by decide)
  rw [hcount] at hbound
  exact ⟨hlt, hwidth, by decide, hleft, hbound⟩

end Doubles
end GraphCalc.Quadrature
