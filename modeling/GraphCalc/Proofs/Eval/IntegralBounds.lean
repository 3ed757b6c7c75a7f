import GraphCalc.Proofs.Eval.Limits

/-! # Values of integral calls and their bounds

A call of `int` evaluates its bounds before anything else, and gives the undefined value if one of
them is not finite. So a value other than that shows that both bounds have finite values. Main statement:

* `finite_bounds_of_outcome`: where the call is defined, its bounds by themselves have finite values.
-/

namespace GraphCalc
set_option autoImplicit false

theorem exists_of_bind_eq_ok {ε α β : Type} {r : Except ε α} {f : α → Except ε β} {b : β}
    (h : r >>= f = .ok b) : ∃ a, r = .ok a ∧ f a = .ok b := by
  cases r with
  | error e => cases h
  | ok a => exact ⟨a, rfl, h⟩

/-- Between bounds that are not both finite an integral is undefined. -/
theorem Quadrature.integral_of_not_finite {fault : GridError → EvalError} {intervals : Int}
    {f : Float → Except EvalError (Option Float)} {a b : Float}
    (h : ¬ (a.isFinite = true ∧ b.isFinite = true)) :
    integral fault intervals f a b = .ok none := by
  have hguard : (!(Scalar.isFinite a && Scalar.isFinite b)) = true := by
    rw [Bool.not_eq_true', ← Bool.not_eq_true, Bool.and_eq_true]
    exact h
  rw [integral, if_pos hguard]
  rfl

/-- A call of `int` has the undefined value, or its bounds have finite values by themselves. -/
theorem finite_bounds_of_outcome {c : Calculus} {limit : Room} {calls : ℕ} {bindings : Bindings}
    {integrand lower upper : Expr} {v : Float}
    (h : c.outcome limit calls bindings (.call integralName [integrand, lower, upper]) = .ok v)
    (hv : v ≠ Binary64.nan) :
    ∃ a b, c.outcome limit calls bindings lower = .ok a ∧ c.outcome limit calls bindings upper = .ok b ∧
      a.isFinite = true ∧ b.isFinite = true := by
  unfold Calculus.outcome at h ⊢
  rw [Expr.value] at h
  obtain ⟨_, ⟨⟩, h⟩ := exists_of_bind_eq_ok h
  obtain ⟨_, ⟨⟩, h⟩ := exists_of_bind_eq_ok h
  split at h
  · obtain ⟨_, ⟨⟩, h⟩ := exists_of_bind_eq_ok h
    obtain ⟨a, ha, h⟩ := exists_of_bind_eq_ok h
    obtain ⟨b, hb, h⟩ := exists_of_bind_eq_ok h
    obtain ⟨area, harea, h⟩ := exists_of_bind_eq_ok h
    refine ⟨a, b, ha, hb, ?_⟩
    by_contra hfinite
    rw [Quadrature.integral_of_not_finite hfinite] at harea
    cases harea
    cases h
    exact hv rfl
  · next hdefined =>
    -- A function of one argument of that name is not called with three.
    have hdefines : c.functions.find? integralName ≠ none := by
      simpa [FunctionTable.defines] using hdefined
    obtain ⟨d, hfind⟩ := Option.ne_none_iff_exists'.mp hdefines
    rw [hfind] at h
    cases h

end GraphCalc
