import GraphCalc.Proofs.Number.Arithmetic
import GraphCalc.Proofs.Quadrature.Samples

/-! # Integrals of cubics

On rationals Simpson's rule is exact for polynomials of degree three: each pair of parts contributes
the difference of an antiderivative at its ends, and the differences telescope. Main statements:

* `weightedSum_exact`: the loop computes a weighted sum;
* `sum_weighted`: the weights are those of neighbouring pairs of parts, added up;
* `panel_eq`: what one pair of parts contributes;
* `integral_cubic`: the integral of a cubic, for any bounds and any number of parts.
-/

namespace GraphCalc.Quadrature
open Finset Polynomial
set_option autoImplicit false

variable {ε : Type}

/-! ## Weights -/

theorem weightedSum_exact (y : ℕ → ℚ) (last count i : ℕ) (total : ℚ) :
    weightedSum (fun j => (.ok (some (y j)) : Except ε (Option ℚ))) last count i total =
      .ok (some (total + ∑ j ∈ range count, weighted last (i + j) (y (i + j)))) := by
  induction count generalizing i total with
  | zero => simp [weightedSum, pure, Except.pure]
  | succ count ih =>
    have hstep : weightedSum (fun j => (.ok (some (y j)) : Except ε (Option ℚ))) last (count + 1) i
        total = weightedSum (fun j => .ok (some (y j))) last count (i + 1)
          (total + weighted last i (y i)) := rfl
    have hshift (j : ℕ) : i + 1 + j = i + (j + 1) := by omega
    simp only [hstep, ih, sum_range_succ', hshift, Nat.add_zero, add_assoc,
      add_comm (weighted last i (y i))]

theorem weighted_end {last i : ℕ} (h : i = 0 ∨ i = last) (y : ℚ) : weighted last i y = y := if_pos h

theorem weighted_odd {last i : ℕ} (h : i % 2 = 1) (hlast : last % 2 = 0) (y : ℚ) :
    weighted last i y = 4 * y := by
  unfold weighted
  rw [if_neg (by omega), if_pos h, Scalar.ofInt_rat, Int.cast_ofNat]

theorem weighted_even {last i : ℕ} (h : i % 2 = 0) (hfirst : i ≠ 0) (hlast : i ≠ last) (y : ℚ) :
    weighted last i y = 2 * y := by
  unfold weighted
  rw [if_neg (by omega), if_neg (by omega), Scalar.ofInt_rat, Int.cast_ofNat]

/-- Three neighbouring samples with the weights of one pair of parts. -/
def panel (y : ℕ → ℚ) (k : ℕ) : ℚ := y (2 * k) + 4 * y (2 * k + 1) + y (2 * k + 2)

/-- Before the last part the weighted sum is that of the pairs so far and one more sample, the first
one of the next pair. -/
theorem sum_weighted_before (y : ℕ → ℚ) {m k : ℕ} (h : k < m) :
    ∑ j ∈ range (2 * k + 1), weighted (2 * m) j (y j) = ∑ i ∈ range k, panel y i + y (2 * k) := by
  induction k with
  | zero => simp [weighted_end]
  | succ k ih =>
    have hnext : 2 * (k + 1) = 2 * k + 2 := rfl
    rw [hnext, sum_range_succ, sum_range_succ, ih (by omega), weighted_odd (by omega) (by omega),
      weighted_even (by omega) (by omega) (by omega), sum_range_succ, panel]
    ring

theorem sum_weighted (y : ℕ → ℚ) {m : ℕ} (h : 0 < m) :
    ∑ j ∈ range (2 * m + 1), weighted (2 * m) j (y j) = ∑ k ∈ range m, panel y k := by
  obtain ⟨k, rfl⟩ : ∃ k, m = k + 1 := ⟨m - 1, by omega⟩
  have hnext : 2 * (k + 1) = 2 * k + 2 := rfl
  rw [hnext, sum_range_succ, sum_range_succ, ← hnext, sum_weighted_before y (Nat.lt_succ_self k),
    weighted_odd (by omega) (by omega), weighted_end (.inr rfl), sum_range_succ, panel, hnext]
  ring

/-! ## Cubics -/

section Antiderivative
variable {P : ℚ[X]}

theorem natDegree_antiderivative (h : (derivative P).natDegree ≤ 3) : P.natDegree ≤ 4 := by
  rw [natDegree_le_iff_coeff_eq_zero] at h ⊢
  intro n hn
  obtain ⟨n, rfl⟩ : ∃ k, n = k + 1 := ⟨n - 1, by omega⟩
  have hcoeff := h n (by omega)
  rw [coeff_derivative] at hcoeff
  exact (mul_eq_zero.mp hcoeff).resolve_right (by positivity)

theorem panel_eq (h : (derivative P).natDegree ≤ 3) (c w : ℚ) :
    ((derivative P).eval c + 4 * (derivative P).eval (c + w) + (derivative P).eval (c + 2 * w)) *
      w / 3 = P.eval (c + 2 * w) - P.eval c := by
  have hP : P.natDegree < 5 := Nat.lt_succ_of_le (natDegree_antiderivative h)
  have hp : (derivative P).natDegree < 4 := Nat.lt_succ_of_le h
  simp only [eval_eq_sum_range' hP, eval_eq_sum_range' hp, sum_range_succ, range_zero, sum_empty,
    coeff_derivative]
  push_cast
  ring

end Antiderivative

/-! ## The rule -/

section Rule
variable {n : ℤ} {m : ℕ} {a b : ℚ}

theorem partWidth_eq (hn : evenCount n = (2 * m : ℕ)) : partWidth n a b = (b - a) / (2 * m) := by
  unfold partWidth
  rw [hn, Scalar.ofInt_rat]
  push_cast
  rfl

theorem cut_eq (n : ℤ) (a b : ℚ) (i : ℕ) : cut n a b i = a + i * partWidth n a b := by
  unfold cut abscissa
  rw [Scalar.ofInt_rat, Int.cast_natCast]

theorem cut_last (hm : 0 < m) (hn : evenCount n = (2 * m : ℕ)) : cut n a b (2 * m) = b := by
  rw [cut_eq, partWidth_eq hn]
  push_cast
  field_simp
  ring

theorem simpson_exact (fault : GridError → ε) (g : ℚ → ℚ) (h : 1 ≤ n) (hm : 0 < m)
    (hn : evenCount n = (2 * m : ℕ)) :
    simpson fault n (fun x => (.ok (some (g x)) : Except ε (Option ℚ))) a b =
      .ok (some (∑ k ∈ range m, panel (fun i => g (cut n a b i)) k * partWidth n a b / 3)) := by
  have hcount : ((2 * m : ℕ) + 1 : ℤ).toNat = 2 * m + 1 := by omega
  rw [simpson_eq h rfl, weightedSum_exact, hn, hcount, Int.toNat_natCast]
  simp only [zero_add, sum_weighted _ hm, Scalar.ofInt_rat, Int.cast_zero, ← sum_mul, ← sum_div]
  rfl

theorem simpson_cubic {P : ℚ[X]} (hdegree : (derivative P).natDegree ≤ 3) (fault : GridError → ε)
    (h : 1 ≤ n) (a b : ℚ) :
    simpson fault n (fun x => (.ok (some ((derivative P).eval x)) : Except ε (Option ℚ))) a b =
      .ok (some (P.eval b - P.eval a)) := by
  obtain ⟨m, hm, hn⟩ := evenCount_eq h
  -- each panel stands over two parts, from one cut of even number to the next
  have hpanel (k : ℕ) : panel (fun i => (derivative P).eval (cut n a b i)) k * partWidth n a b / 3 =
      P.eval (cut n a b (2 * (k + 1))) - P.eval (cut n a b (2 * k)) := by
    have hcenter : cut n a b (2 * k + 1) = cut n a b (2 * k) + partWidth n a b := by
      rw [cut_eq, cut_eq]
      push_cast
      ring
    have hright : cut n a b (2 * k + 2) = cut n a b (2 * k) + 2 * partWidth n a b := by
      rw [cut_eq, cut_eq]
      push_cast
      ring
    rw [panel, hcenter, hright, panel_eq hdegree, mul_add_one, hright]
  have hfirst : cut n a b (2 * 0) = a := by
    rw [cut_eq]
    simp
  rw [simpson_exact fault _ h hm hn, sum_congr rfl fun k _ => hpanel k,
    sum_range_sub fun k => P.eval (cut n a b (2 * k)), cut_last hm hn, hfirst]

end Rule

/-- The integral of a cubic from any bound to any other is the difference of an antiderivative at the
bounds, however many parts there are. -/
theorem integral_cubic {p P : ℚ[X]} (hdegree : p.natDegree ≤ 3) (hP : derivative P = p)
    (fault : GridError → ε) {intervals : ℤ} (hcount : 1 ≤ intervals) (a b : ℚ) :
    integral fault intervals (fun x => (.ok (some (p.eval x)) : Except ε (Option ℚ))) a b =
      .ok (some (P.eval b - P.eval a)) := by
  subst hP
  unfold integral
  rw [Scalar.isFinite_rat, Scalar.isFinite_rat, Bool.and_true, Bool.not_true,
    if_neg Bool.false_ne_true, Scalar.equal_rat, Scalar.less_rat]
  simp only [decide_eq_true_eq]
  split
  · next heq =>
    rw [heq, sub_self, Scalar.ofInt_rat, Int.cast_zero]
    rfl
  split
  · rw [simpson_cubic hdegree fault hcount b a, ← neg_sub (P.eval a)]
    rfl
  · exact simpson_cubic hdegree fault hcount a b

/-- The cube from right to left, in three parts, which are raised to four. -/
theorem integral_cube_backwards : (X ^ 3 : ℚ[X]).natDegree ≤ 3 ∧
    derivative (C (1 / 4) * X ^ 4 : ℚ[X]) = X ^ 3 ∧ (1 : ℤ) ≤ 3 ∧
    (integral id 3 (fun x => .ok (some ((X ^ 3 : ℚ[X]).eval x))) 2 (-1) :
      Except GridError (Option ℚ)) = .ok (some (-15 / 4)) := by
  have hdegree : (X ^ 3 : ℚ[X]).natDegree ≤ 3 := natDegree_X_pow_le 3
  have hcube : derivative (C (1 / 4) * X ^ 4 : ℚ[X]) = X ^ 3 := by
    rw [derivative_C_mul_X_pow]
    norm_num
  refine ⟨hdegree, hcube, by decide, ?_⟩
  rw [integral_cubic hdegree hcube id (by decide) 2 (-1)]
  norm_num

end GraphCalc.Quadrature
