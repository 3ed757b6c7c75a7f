import GraphCalc.Proofs.Number.Underflow
import GraphCalc.Proofs.Plot.InView

/-! # Roots that are found

A pair of neighbouring samples calls for a root if its first value is zero, or if the product of its
values is negative. The product is one of doubles, so a change of sign is overlooked where it vanishes;
and a zero is looked for at the first place of a pair only. Main statements:

* `Root.callsForRoot_iff_of_opposite`: values of opposite sign call for a root if and only if their
  product does not vanish;
* `Root.signChanges_of_opposite`: what two such samples add to the roots of the whole grid;
* `Graph.zero_sample_is_intercept`: a zero in front of a finite sample is reported.
-/

namespace GraphCalc
open Binary64
set_option autoImplicit false

/-! ## Changes of sign -/

namespace Root
variable {f : Float → Float} {rounds : ℤ}

theorem callsForRoot_iff_of_opposite {v w : Float} (hv : v.isFinite = true) (hw : w.isFinite = true)
    (hsigns : (v < 0.0 ∧ 0.0 < w) ∨ (0.0 < v ∧ w < 0.0)) :
    callsForRoot v w = true ↔ halfLeast < |value v| * |value w| := by
  have hnonzero : Scalar.equal v (Scalar.ofInt 0) = false := by
    refine Bool.eq_false_iff.mpr fun hzero => ?_
    have hrank := (beq_iff.mp hzero).2.2
    rcases hsigns with ⟨hneg, -⟩ | ⟨hpos, -⟩
    · exact (lt_iff.mp hneg).2.2.ne hrank
    · exact (lt_iff.mp hpos).2.2.ne' hrank
  have hless : Scalar.less (v * w) (Scalar.ofInt 0) = true ↔ v * w < 0.0 := decide_eq_true_iff
  have hfinite : (Scalar.isFinite v && Scalar.isFinite w) = true := by
    rw [Bool.and_eq_true]
    exact ⟨hv, hw⟩
  rw [callsForRoot, hfinite, hnonzero, Bool.true_and, Bool.false_or, hless,
    mul_neg_iff_of_opposite hv hw hsigns]

/-- Neighbouring samples with values of opposite sign are refined, whatever the other samples are, if
the product of the values is more than half the least positive double. Else the product is rounded to
zero, and the two add nothing to the roots that the samples before them and after them give. -/
theorem signChanges_of_opposite {view : Viewport} {before after : List Float} {x x' : Float}
    (hsamples : view.xs = before ++ x :: x' :: after)
    (hx : (f x).isFinite = true) (hx' : (f x').isFinite = true)
    (hsigns : (f x < 0.0 ∧ 0.0 < f x') ∨ (0.0 < f x ∧ f x' < 0.0)) :
    Id.run (signChanges f rounds view.xs) =
      Id.run (signChanges f rounds (before ++ [x])) ++
        ((if halfLeast < |value (f x)| * |value (f x')| then (Id.run (bisect f rounds x x')).toList
          else []) ++ Id.run (signChanges f rounds (x' :: after))) ∧
    (halfLeast < |value (f x)| * |value (f x')| →
      ∀ root, Id.run (bisect f rounds x x') = some root → root ∈ Id.run (signChanges f rounds view.xs)) := by
  have hcalls := callsForRoot_iff_of_opposite hx hx' hsigns
  rw [hsamples, run_signChanges_append]
  refine ⟨?_, fun hlarge root hroot => ?_⟩
  · rw [ofPair_eq]
    simp only [hcalls]
  · have hpair := mem_ofPair.mpr ⟨hcalls.mpr hlarge, hroot⟩
    exact List.mem_append_right _ (List.mem_append_left _ hpair)

/-- The condition for the diagonal, which crosses the axis between the edges. -/
theorem diagonal_is_refined :
    ∃ root, Id.run (bisect (fun x : Float => x) 2 (-1.0) 1.0) = some root ∧
      root ∈ Id.run (signChanges (fun x => x) 2 twoSamples.xs) := by
  have hleft : (-1.0 : Float).isFinite = true := by decide
  have hright : (1.0 : Float).isFinite = true := by decide
  have hsigns : (-1.0 : Float) < 0.0 ∧ (0.0 : Float) < 1.0 := by decide
  have hlarge := (callsForRoot_iff_of_opposite hleft hright (.inl hsigns)).mp (by decide)
  have hroot : (Id.run (bisect (fun x : Float => x) 2 (-1.0) 1.0)).isSome = true := by decide
  obtain ⟨root, hbisect⟩ := Option.isSome_iff_exists.mp hroot
  have hsamples : twoSamples.xs = [] ++ -1.0 :: 1.0 :: [] := by decide
  exact ⟨root, hbisect,
    (signChanges_of_opposite (f := fun x => x) hsamples hleft hright (.inl hsigns)).2 hlarge root
      hbisect⟩

/-- The values -1.5e-200 and 5e-201 have a product that vanishes, so their change of sign gives no root,
although bisection would return one. -/
theorem small_change_is_overlooked :
    let value := (drawn "1e-200*(x-0.5)").valueAt
    twoSamples.xs = [-1.0, 1.0] ∧ found (value (-1.0)) < 0.0 ∧ 0.0 < found (value 1.0) ∧
    (found (value (-1.0))).isFinite = true ∧ (found (value 1.0)).isFinite = true ∧
    (found (bisect value 2 (-1.0) 1.0)).isSome = true ∧
    found (signChanges value 2 twoSamples.xs) = [] := by
  decide +kernel

end Root

/-! ## Zeros on the grid -/

theorem isFinite_of_zero {v : Float} (h : (v == 0.0) = true) : v.isFinite = true := by
  have hzero : rank 0.0 = 0 := by decide
  have hbound : (rank 0.0).natAbs < infinityBits := by decide
  rw [isFinite_iff_rank, (beq_iff.mp h).2.2]
  exact hbound

namespace Root
variable {m : Type → Type} [Monad m] {R : Results m} {f : Float → m Float} {rounds : ℤ} {a b v w : Float}
  {roots : List Float}

theorem mem_between_of_zero (hzero : ∀ u, R.Gives (f a) u → (u == 0.0) = true)
    (hfinite : ∀ u, R.Gives (f b) u → u.isFinite = true) (hv : R.Gives (f a) v) (hw : R.Gives (f b) w)
    (h : R.Gives (between f rounds a v b w) roots) : a ∈ roots := by
  have hends {v w : Float} (hv : R.Gives (f a) v) (hw : R.Gives (f b) w) :
      (Scalar.isFinite v && Scalar.isFinite w) = true ∧
        Scalar.equal v (Scalar.ofInt 0) = true :=
    ⟨(Bool.and_eq_true _ _).mpr ⟨isFinite_of_zero (hzero v hv), hfinite w hw⟩, hzero v hv⟩
  obtain ⟨hboth, hequal⟩ := hends hv hw
  rw [between, callsForRoot, hboth, hequal, Bool.true_or, Bool.true_and, if_pos rfl] at h
  obtain ⟨root, hroot, h⟩ := R.of_bind h
  -- bisection asks for the values at both ends once more
  obtain ⟨v', hv', hroot⟩ := R.of_bind hroot
  obtain ⟨w', hw', hroot⟩ := R.of_bind hroot
  obtain ⟨hboth', hequal'⟩ := hends hv' hw'
  simp only [hboth', hequal', Bool.not_true, Bool.false_eq_true, if_false, if_true] at hroot
  rw [R.of_pure h, R.of_pure hroot]
  exact List.mem_singleton_self a

/-- A zero in front of a place where the function is finite is a root. -/
theorem mem_signChanges_of_zero {before after : List Float}
    (hzero : ∀ u, R.Gives (f a) u → (u == 0.0) = true)
    (hfinite : ∀ u, R.Gives (f b) u → u.isFinite = true)
    (h : R.Gives (signChanges f rounds (before ++ a :: b :: after)) roots) : a ∈ roots := by
  have hfrom {v : Float} {roots : List Float} (hv : R.Gives (f a) v)
      (h : R.Gives (signChangesFrom f rounds a v (b :: after)) roots) : a ∈ roots := by
    obtain ⟨w, first, rest, hw, hfirst, -, rfl⟩ := of_signChangesFrom h
    exact List.mem_append_left _ (mem_between_of_zero hzero hfinite hv hw hfirst)
  have hbehind (before : List Float) : ∀ {c u : Float} {roots : List Float},
      R.Gives (signChangesFrom f rounds c u (before ++ a :: b :: after)) roots → a ∈ roots := by
    induction before with
    | nil =>
      intro c u roots h
      obtain ⟨v, first, rest, hv, -, hrest, rfl⟩ := of_signChangesFrom h
      exact List.mem_append_right _ (hfrom hv hrest)
    | cons d before ih =>
      intro c u roots h
      obtain ⟨v, first, rest, -, -, hrest, rfl⟩ := of_signChangesFrom h
      exact List.mem_append_right _ (ih hrest)
  cases before with
  | nil =>
    obtain ⟨v, hv, h⟩ := of_signChanges h
    exact hfrom hv h
  | cons c before =>
    obtain ⟨u, -, h⟩ := of_signChanges h
    exact hbehind before h

end Root

namespace Graph
variable {rounds : ℤ} {view : Viewport} {settings : Settings} {functions : FunctionTable}
  {engine : Engine}

theorem mem_yIntercept_of_zero {m : Type → Type} [Monad m] {R : Results m} {value : Float → m Float}
    {points : List Point} (hview : view.containsX 0.0 = true)
    (hzero : ∀ u, R.Gives (value 0.0) u → (u == 0.0) = true)
    (h : R.Gives (yIntercept value view) points) :
    ∃ p ∈ points, p.x = 0.0 ∧ (p.y == 0.0) = true := by
  rw [yIntercept, if_pos hview] at h
  obtain ⟨y, hy, h⟩ := R.of_bind h
  rw [R.of_pure h, finitePoint, if_pos (isFinite_of_zero (hzero y hy))]
  exact ⟨⟨0.0, y⟩, List.mem_singleton_self _, rfl, hzero y hy⟩

/-- A sample where a line is exactly zero is reported as an intercept if the line is finite at the
next sample, or if the sample is zero itself and in view. The engine may have been asked anything before,
and the values are those that it has for the samples then. -/
theorem zero_sample_is_intercept (h : Engine.Reachable settings functions engine) {line : Line}
    {before after : List Float} {x : Float} (hsamples : view.xs = before ++ x :: after)
    (hzero : ((engine.run (line.graph.valueAt x)).1 == 0.0) = true)
    (hkept : (∃ x' ∈ after.head?, (engine.run (line.graph.valueAt x')).1.isFinite = true) ∨
      (x = 0.0 ∧ view.containsX 0.0 = true)) :
    ∃ p ∈ (engine.run (line.graph.intercepts rounds view)).1, p.x = x ∧ (p.y == 0.0) = true := by
  have hpoints := h.coherent.gives_run (line.graph.intercepts rounds view)
  have hsettled {x u : Float} (hfinite : (engine.run (line.graph.valueAt x)).1.isFinite = true)
      (hu : h.coherent.resultsFrom.Gives (line.graph.valueAt x) u) :
      u = (engine.run (line.graph.valueAt x)).1 :=
    h.coherent.eq_of_gives (line.completes_valueAt hfinite) hu
  replace hzero : ∀ u, h.coherent.resultsFrom.Gives (line.graph.valueAt x) u → (u == 0.0) = true := by
    intro u hu
    rwa [hsettled (isFinite_of_zero hzero) hu]
  cases hshape : line.shape with
  | vertical place =>
    have hnan : (Binary64.nan == 0.0) = false := by decide
    rw [Line.graph_of_vertical hshape] at hzero
    exact absurd (hzero _ (h.coherent.gives_run _)) (by rw [valueAt, Engine.run_pure, hnan]; decide)
  | curve base =>
    rw [Line.graph_of_curve hshape] at *
    obtain ⟨onY, onX, hy, hx, hpoints⟩ := of_intercepts_curve hpoints
    rw [hpoints]
    rcases hkept with ⟨x', hnext, hfinite⟩ | ⟨rfl, hview⟩
    · obtain ⟨rest, rfl⟩ := List.head?_eq_some_iff.mp hnext
      obtain ⟨roots, hroots, hx⟩ := Results.of_bind _ hx
      rw [hsamples] at hroots
      have hroot := Root.mem_signChanges_of_zero hzero (fun u hu => (hsettled hfinite hu).symm ▸ hfinite)
        hroots
      have hequal : ((0.0 : Float) == 0.0) = true := by decide
      rw [Results.of_pure _ hx]
      exact ⟨⟨x, 0.0⟩, List.mem_append_right _ (List.mem_map_of_mem hroot), rfl, hequal⟩
    · obtain ⟨p, hp, hplace⟩ := mem_yIntercept_of_zero hview hzero hy
      exact ⟨p, List.mem_append_left _ hp, hplace⟩

/-- A parabola that is cut off in front of the right edge has zeros at the first sample and at the second
one; the first stands in front of a finite sample, the second in the middle of the view. -/
theorem both_zeros_are_intercepts :
    (∃ p ∈ found ((drawn "x*(x+1) \x7bx<1\x7d").intercepts 18 squareView),
      p.x = -1.0 ∧ (p.y == 0.0) = true) ∧
    (∃ p ∈ found ((drawn "x*(x+1) \x7bx<1\x7d").intercepts 18 squareView),
      p.x = 0.0 ∧ (p.y == 0.0) = true) ∧
    (found ((drawn "x*(x+1) \x7bx<1\x7d").valueAt 1.0)).isFinite = false := by
  have hfirst : squareView.xs = [] ++ -1.0 :: [0.0, 1.0] := by decide
  have hsecond : squareView.xs = [-1.0] ++ 0.0 :: [1.0] := by decide
  refine ⟨zero_sample_is_intercept .fresh hfirst ?_ (.inl ⟨0.0, rfl, ?_⟩),
    zero_sample_is_intercept .fresh hsecond ?_ (.inr ⟨rfl, ?_⟩), ?_⟩
  all_goals decide +kernel

/-- A zero is lost if the next sample is at a pole: the sample at -1 is exactly zero, and no intercept is
reported there. -/
theorem zero_before_pole_is_lost :
    squareView.left.isFinite = true ∧ squareView.right.isFinite = true ∧
    squareView.xs = [-1.0, 0.0, 1.0] ∧ (found ((drawn "1/x+1").valueAt (-1.0)) == 0.0) = true ∧
    found ((drawn "1/x+1").intercepts 18 squareView) = [] := by
  decide +kernel

end Graph
end GraphCalc
