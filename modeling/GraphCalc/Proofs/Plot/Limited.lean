import GraphCalc.Plot.KeyPoint
import GraphCalc.Proofs.Line.Sides
import GraphCalc.Proofs.Plot.Roots

/-! # Key points and limits

Points are computed from curves that are cut to their limits, and are not compared with the limits
afterwards. That they respect them follows from two facts: a cut curve is finite only inside its
limits, and a range that allows a negative and a positive height allows zero. Main statements:

* `Graph.limitedValue_eq`: where a cut curve is finite, place and height are allowed;
* `Graph.allow_of_mem_intercepts`, `Graph.allow_of_mem_curveCrossings`,
  `Graph.allow_of_mem_verticalCrossing`: the points that graphs may give;
* `points_within_limits`: intercepts and crossings are inside the limits of the lines they belong to.
-/

namespace GraphCalc
open Binary64
set_option autoImplicit false

theorem Limits.allow_between {limits : Option Limits} {axis : Axis} {u v w : Float}
    (hu : u.isNaN = false) (hw : w.isNaN = false) (hle : rank u ≤ rank v) (hle' : rank v ≤ rank w)
    (h : Limits.allow limits axis u = true) (h' : Limits.allow limits axis w = true) :
    Limits.allow limits axis v = true := by
  cases limits with
  | none => rfl
  | some l => exact Range.allows_between hu hw hle hle' h h'

namespace Graph
variable {m : Type → Type} [Monad m] {R : Results m} {limits other : Option Limits}
  {value value' : Float → m Float} {rounds : ℤ} {view : Viewport} {p : Point} {points : List Point}

/-! ## Cut curves -/

/-- Where a cut curve is finite, it is the curve, and its place and its height are allowed. -/
theorem limitedHeight_eq {y : Float} (h : (limitedHeight limits y).isFinite = true) :
    limitedHeight limits y = y ∧ Limits.allow limits .y y = true := by
  have hnan : Binary64.nan.isFinite = false := by decide
  unfold limitedHeight at h ⊢
  split at h
  · next hy =>
    rw [if_pos hy]
    exact ⟨rfl, by simpa [h] using hy⟩
  · rw [hnan] at h
    cases h

theorem limitedValue_eq {x y : Float} (h : R.Gives (limitedValue limits value x) y)
    (hy : y.isFinite = true) :
    R.Gives (value x) y ∧ Limits.allow limits .x x = true ∧ Limits.allow limits .y y = true := by
  unfold limitedValue at h
  split at h
  · next hx =>
    obtain ⟨height, hheight, h⟩ := R.of_bind h
    rw [R.of_pure h] at hy ⊢
    obtain ⟨heq, hallow⟩ := limitedHeight_eq hy
    rw [heq]
    exact ⟨hheight, hx, hallow⟩
  · rw [R.of_pure h] at hy
    cases hy

/-! ## Intercepts -/

theorem eq_of_mem_finitePoint {x y : Float} (h : p ∈ finitePoint x y) : p = ⟨x, y⟩ ∧ y.isFinite = true := by
  unfold finitePoint at h
  split at h
  · next hfinite => exact ⟨List.mem_singleton.mp h, hfinite⟩
  · cases h

theorem mem_yIntercept (h : R.Gives (yIntercept value view) points) (hp : p ∈ points) :
    view.containsX 0.0 = true ∧ p.x = 0.0 ∧ R.Gives (value 0.0) p.y ∧ p.y.isFinite = true := by
  unfold yIntercept at h
  split at h
  · next hview =>
    obtain ⟨y, hy, h⟩ := R.of_bind h
    rw [R.of_pure h] at hp
    obtain ⟨rfl, hfinite⟩ := eq_of_mem_finitePoint hp
    exact ⟨hview, rfl, hy, hfinite⟩
  · rw [R.of_pure h] at hp
    cases hp

theorem mem_xIntercepts (h : R.Gives (xIntercepts value rounds view) points) (hp : p ∈ points) :
    ∃ roots, R.Gives (Root.signChanges value rounds view.xs) roots ∧ p.x ∈ roots ∧ p.y = 0.0 := by
  unfold xIntercepts at h
  obtain ⟨roots, hroots, h⟩ := R.of_bind h
  rw [R.of_pure h] at hp
  obtain ⟨root, hroot, rfl⟩ := List.mem_map.mp hp
  exact ⟨roots, hroots, hroot, rfl⟩

theorem of_intercepts_curve (h : R.Gives (intercepts rounds view (.curve limits value)) points) :
    ∃ onY onX, R.Gives (yIntercept (limitedValue limits value) view) onY ∧
      R.Gives (xIntercepts (limitedValue limits value) rounds view) onX ∧ points = onY ++ onX := by
  rw [intercepts] at h
  obtain ⟨onY, hy, h⟩ := R.of_bind h
  obtain ⟨onX, hx, h⟩ := R.of_bind h
  exact ⟨onY, onX, hy, hx, R.of_pure h⟩

/-- A root of a cut curve is an allowed place, and the limits allow the height zero, although the
curve need not have it anywhere. -/
theorem allow_of_mem_signChanges {root : Float} {roots : List Float}
    (h : R.Gives (Root.signChanges (limitedValue limits value) rounds view.xs) roots)
    (hroot : root ∈ roots) :
    Limits.allow limits .x root = true ∧ Limits.allow limits .y 0.0 = true := by
  obtain ⟨a, b, v, w, -, hv, hw, hcalls, hbisect⟩ := Root.mem_signChanges h hroot
  obtain ⟨u, hu, hfinite⟩ := Root.isFinite_of_bisect hbisect
  refine ⟨(limitedValue_eq hu hfinite).2.1, ?_⟩
  obtain ⟨hfiniteV, hfiniteW, hsigns⟩ := Root.callsForRoot_cases hcalls
  have hallowV := (limitedValue_eq hv hfiniteV).2.2
  have hallowW := (limitedValue_eq hw hfiniteW).2.2
  have hnanV := isNaN_of_isFinite hfiniteV
  have hnanW := isNaN_of_isFinite hfiniteW
  have hzero : rank 0.0 = 0 := by decide
  rcases hsigns with hsame | ⟨hneg, hpos⟩ | ⟨hpos, hneg⟩
  · exact Limits.allow_between hnanV hnanV (by omega) (by omega) hallowV hallowV
  · exact Limits.allow_between hnanV hnanW (by omega) (by omega) hallowV hallowW
  · exact Limits.allow_between hnanW hnanV (by omega) (by omega) hallowW hallowV

theorem allow_of_mem_intercepts (h : R.Gives (intercepts rounds view (.curve limits value)) points)
    (hp : p ∈ points) :
    (p.x = 0.0 ∨ p.y = 0.0) ∧ Limits.allow limits .x p.x = true ∧ Limits.allow limits .y p.y = true := by
  obtain ⟨onY, onX, hy, hx, rfl⟩ := of_intercepts_curve h
  rcases List.mem_append.mp hp with hp | hp
  · obtain ⟨-, hplace, hvalue, hfinite⟩ := mem_yIntercept hy hp
    rw [hplace]
    exact ⟨.inl rfl, (limitedValue_eq hvalue hfinite).2⟩
  · obtain ⟨roots, hroots, hroot, hheight⟩ := mem_xIntercepts hx hp
    rw [hheight]
    exact ⟨.inr rfl, allow_of_mem_signChanges hroots hroot⟩

/-! ## Crossings -/

/-- The points over places, each with a height that the curve may have there. -/
theorem of_samples [LawfulMonad m] {places : List Float} (h : R.Gives (samples value places) points) :
    List.Forall₂ (fun x p => p.x = x ∧ R.Gives (value x) p.y) places points := by
  refine (R.of_mapM h).imp fun x p hpoint => ?_
  obtain ⟨y, hy, hpoint⟩ := R.of_bind hpoint
  rw [R.of_pure hpoint]
  exact ⟨rfl, hy⟩

theorem places_of_samples [LawfulMonad m] {places : List Float}
    (h : R.Gives (samples value places) points) : points.map Point.x = places := by
  have hsampled := of_samples h
  clear h
  induction hsampled with
  | nil => rfl
  | cons hpoint _ ih => rw [List.map_cons, hpoint.1, ih]

theorem mem_samples [LawfulMonad m] {places : List Float} (h : R.Gives (samples value places) points)
    (hp : p ∈ points) : p.x ∈ places ∧ R.Gives (value p.x) p.y := by
  have hsampled := of_samples h
  clear h
  induction hsampled with
  | nil => cases hp
  | cons hpoint _ ih =>
    rcases List.mem_cons.mp hp with rfl | hp
    · obtain ⟨rfl, hvalue⟩ := hpoint
      exact ⟨List.mem_cons_self, hvalue⟩
    · exact (ih hp).imp_left (List.mem_cons_of_mem _)

theorem isFinite_of_difference {f g : Float → m Float} {x v : Float}
    (h : R.Gives (difference f g x) v) (hv : v.isFinite = true) :
    (∃ y, R.Gives (f x) y ∧ y.isFinite = true) ∧ ∃ y, R.Gives (g x) y ∧ y.isFinite = true := by
  obtain ⟨y, hy, h⟩ := R.of_bind h
  obtain ⟨z, hz, h⟩ := R.of_bind h
  rw [R.of_pure h] at hv
  obtain ⟨hfinite, hfinite'⟩ := isFinite_of_isFinite_sub hv
  exact ⟨⟨y, hy, hfinite⟩, z, hz, hfinite'⟩

theorem mem_curveCrossings [LawfulMonad m] {f g : Float → m Float}
    (h : R.Gives (curveCrossings f g rounds view) points) (hp : p ∈ points) :
    (∃ roots, R.Gives (Root.signChanges (difference f g) rounds view.xs) roots ∧ p.x ∈ roots) ∧
      R.Gives (f p.x) p.y ∧ p.y.isFinite = true := by
  unfold curveCrossings at h
  obtain ⟨roots, hroots, h⟩ := R.of_bind h
  obtain ⟨sampled, hsampled, h⟩ := R.of_bind h
  rw [R.of_pure h, List.mem_filter] at hp
  obtain ⟨hroot, hvalue⟩ := mem_samples hsampled hp.1
  exact ⟨⟨roots, hroots, hroot⟩, hvalue, hp.2⟩

theorem allow_of_mem_curveCrossings [LawfulMonad m]
    (h : R.Gives (curveCrossings (limitedValue limits value) (limitedValue other value') rounds view)
      points) (hp : p ∈ points) :
    Limits.allow limits .x p.x = true ∧ Limits.allow limits .y p.y = true ∧
      Limits.allow other .x p.x = true := by
  obtain ⟨⟨roots, hroots, hroot⟩, hvalue, hfinite⟩ := mem_curveCrossings h hp
  obtain ⟨a, b, v, w, -, -, -, -, hbisect⟩ := Root.mem_signChanges hroots hroot
  -- the difference is finite at the root, hence both curves are
  obtain ⟨u, hu, hfiniteU⟩ := Root.isFinite_of_bisect hbisect
  obtain ⟨-, y, hy, hfiniteY⟩ := isFinite_of_difference hu hfiniteU
  obtain ⟨-, hx, hallow⟩ := limitedValue_eq hvalue hfinite
  exact ⟨hx, hallow, (limitedValue_eq hy hfiniteY).2.1⟩

theorem mem_verticalCrossing {place : Float} (h : R.Gives (verticalCrossing other place value view) points)
    (hp : p ∈ points) : shows other place view = true ∧ p.x = place ∧ R.Gives (value place) p.y ∧
      p.y.isFinite = true ∧ Limits.allow other .y p.y = true := by
  unfold verticalCrossing at h
  split at h
  · next hshows =>
    obtain ⟨y, hy, h⟩ := R.of_bind h
    rw [R.of_pure h] at hp
    split at hp
    · next hallowed =>
      obtain rfl := List.mem_singleton.mp hp
      rw [Bool.and_eq_true] at hallowed
      exact ⟨hshows, rfl, hy, hallowed⟩
    · cases hp
  · rw [R.of_pure h] at hp
    cases hp

theorem allow_of_mem_verticalCrossing {place : Float}
    (h : R.Gives (verticalCrossing other place (limitedValue limits value) view) points) (hp : p ∈ points) :
    (Limits.allow other .x p.x = true ∧ Limits.allow other .y p.y = true) ∧
      Limits.allow limits .x p.x = true ∧ Limits.allow limits .y p.y = true := by
  obtain ⟨hshows, hplace, hvalue, hfinite, hallow⟩ := mem_verticalCrossing h hp
  unfold shows at hshows
  rw [Bool.and_eq_true, Bool.and_eq_true] at hshows
  rw [hplace]
  exact ⟨⟨hshows.1.2, hallow⟩, (limitedValue_eq hvalue hfinite).2⟩

end Graph

/-! ## Lines -/

def Line.isVertical (line : Line) : Bool := line.place?.isSome

theorem Line.graph_of_curve {line : Line} {base : String} (h : line.shape = .curve base) :
    line.graph = .curve line.limits (Inquiry.valueAt base) := by
  rw [Line.graph, h]

theorem Line.graph_of_vertical {line : Line} {place : Float} (h : line.shape = .vertical place) :
    line.graph = .vertical line.limits place := by
  rw [Line.graph, h]

theorem Line.exists_vertical {line : Line} (h : line.isVertical = true) :
    ∃ place, line.graph = .vertical line.limits place := by
  cases hshape : line.shape with
  | vertical place => exact ⟨place, graph_of_vertical hshape⟩
  | curve base => simp [isVertical, place?, hshape] at h

theorem Line.exists_curve {line : Line} (h : line.isVertical = false) :
    ∃ base, line.graph = .curve line.limits (Inquiry.valueAt base) := by
  cases hshape : line.shape with
  | vertical place => simp [isVertical, place?, hshape] at h
  | curve base => exact ⟨base, graph_of_curve hshape⟩

/-- A height that is found is not cut off. -/
theorem Inquiry.completes_valueAt {source : String} {x : Float} {engine : Engine}
    (h : (engine.run (Inquiry.valueAt source x)).1.isFinite = true) :
    engine.completes (Inquiry.valueAt source x) = true := by
  rw [Engine.run_valueAt] at h
  have hanswer : engine.completes (Inquiry.valueAt source x) =
      (!engine.cutsOff (.text source [(integrationVariable, x)]) && true) := rfl
  cases hreply : (engine.reply (.text source [(integrationVariable, x)])).1 with
  | error e =>
    have hnan : Binary64.nan.isFinite = false := by decide
    rw [hreply, Inquiry.orUndefined, hnan] at h
    cases h
  | ok v => rw [hanswer, Engine.cutsOff_of_reply_ok hreply, Bool.not_false, Bool.and_true]

theorem Line.completes_valueAt (line : Line) {x : Float} {engine : Engine}
    (h : (engine.run (line.graph.valueAt x)).1.isFinite = true) :
    engine.completes (line.graph.valueAt x) = true := by
  cases hshape : line.shape with
  | vertical place =>
    rw [Line.graph_of_vertical hshape]
    rfl
  | curve base =>
    rw [Line.graph_of_curve hshape, Graph.valueAt, Graph.limitedValue] at *
    split at h
    · next hallow =>
      rw [Engine.run_bind, Engine.run_pure] at h
      rw [if_pos hallow, Engine.completes_bind, Engine.completes_pure, Bool.and_true]
      exact Inquiry.completes_valueAt ((Graph.limitedHeight_eq h).1 ▸ h)
    · next hallow =>
      rw [if_neg hallow]
      rfl

/-- On every engine, intercepts and crossings are inside the limits of the lines that they belong to: an
intercept inside both limits of its curve, a crossing of two curves inside both limits of the first and
the horizontal limits of the second, and a crossing of a vertical line and a curve inside all limits of
both. -/
theorem points_within_limits (engine : Engine) (rounds : ℤ) (view : Viewport) (line other : Line) :
    (∀ base, line.shape = .curve base →
      ∀ p ∈ (engine.run (line.graph.intercepts rounds view)).1, (p.x = 0.0 ∨ p.y = 0.0) ∧
        Limits.allow line.limits .x p.x = true ∧ Limits.allow line.limits .y p.y = true) ∧
    (∀ base base', line.shape = .curve base → other.shape = .curve base' →
      ∀ p ∈ (engine.run (line.graph.crossings rounds view other.graph)).1,
        Limits.allow line.limits .x p.x = true ∧ Limits.allow line.limits .y p.y = true ∧
          Limits.allow other.limits .x p.x = true) ∧
    ∀ base place, line.shape = .curve base → other.shape = .vertical place →
      ∀ p, p ∈ (engine.run (line.graph.crossings rounds view other.graph)).1 ∨
          p ∈ (engine.run (other.graph.crossings rounds view line.graph)).1 →
        (Limits.allow other.limits .x p.x = true ∧ Limits.allow other.limits .y p.y = true) ∧
          Limits.allow line.limits .x p.x = true ∧ Limits.allow line.limits .y p.y = true := by
  refine ⟨?_, ?_, ?_⟩
  · intro base hline p hp
    rw [Line.graph_of_curve hline] at hp
    exact Graph.allow_of_mem_intercepts (Engine.gives_run _ engine) hp
  · intro base base' hline hother p hp
    rw [Line.graph_of_curve hline, Line.graph_of_curve hother] at hp
    exact Graph.allow_of_mem_curveCrossings (Engine.gives_run _ engine) hp
  · intro base place hline hother p hp
    rw [Line.graph_of_curve hline, Line.graph_of_vertical hother] at hp
    exact Graph.allow_of_mem_verticalCrossing (Engine.gives_run _ engine) (hp.elim id id)

end GraphCalc
