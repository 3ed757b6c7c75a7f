import GraphCalc.Proofs.Number.Grid
import GraphCalc.Proofs.Plot.Limited
import GraphCalc.Proofs.Plot.Merging

/-! # Key points in view

Places are looked for between the left edge and the last sample, which rounding may put beside the
right edge. Heights are not compared with the view at all. Main notions and statements:

* `Viewport.last`, `Viewport.Spans`: the last sample, and a view that is not too large for doubles;
* `Viewport.Spans.neighbours`: samples lie between the left edge and the last sample, in order;
* `Graph.reaches_root`, `reaches_of_mem_keyPoints`: so do roots, and the places of all points;
* `contains_reported_iff`: a point that is reported is in view if and only if its height is, and its
  place is not beyond the right edge, where only the last sample can be.
-/

namespace GraphCalc
open Binary64
set_option autoImplicit false

namespace Viewport

/-! ## The sample grid -/

/-- The sample with a number. -/
def sample (view : Viewport) (i : ℕ) : Float := view.left + Float.ofNat i * view.step

/-- The last sample: the right edge, up to rounding. -/
def last (view : Viewport) : Float := view.sample view.width

/-- Twice the edges are finite, so that the width and the middle of any two samples are doubles. -/
structure Spans (view : Viewport) : Prop where
  left : (view.left + view.left).isFinite = true
  last : (view.last + view.last).isFinite = true

variable {view : Viewport}

theorem xs_eq (view : Viewport) : view.xs = (List.range (view.width + 1)).map view.sample := rfl

namespace Spans

theorem left_finite (h : view.Spans) : view.left.isFinite = true :=
  (isFinite_of_isFinite_add h.left).1

theorem last_finite (h : view.Spans) : view.last.isFinite = true :=
  (isFinite_of_isFinite_add h.last).1

theorem width_step_finite (h : view.Spans) :
    (Float.ofNat view.width).isFinite = true ∧ view.step.isFinite = true :=
  isFinite_of_isFinite_mul (isFinite_of_isFinite_add h.last_finite).2

theorem step_nonneg (h : view.Spans) : 0 ≤ value view.step := by
  obtain ⟨hcount, hstep⟩ := h.width_step_finite
  have hwidth := isFinite_of_isFinite_div hstep
  have hright := (isFinite_of_isFinite_sub hwidth).1
  exact Binary64.step_nonneg hwidth
    (value_le_value h.left_finite hright (lt_iff.mp view.left_lt_right).2.2.le) view.width_pos hcount

theorem sample_le (h : view.Spans) {i j : ℕ} (hij : i ≤ j) (hj : j ≤ view.width) :
    view.sample i ≤ view.sample j :=
  place_le h.left_finite h.width_step_finite.2 h.step_nonneg hij
    (ofNat_finite hj h.width_step_finite.1)

theorem left_le_sample (h : view.Spans) {i : ℕ} (hi : i ≤ view.width) :
    view.left ≤ view.sample i :=
  le_place h.left_finite h.width_step_finite.2 h.step_nonneg (ofNat_finite hi h.width_step_finite.1)

/-- Neighbouring samples are in order and lie between the left edge and the last sample. -/
theorem neighbours (h : view.Spans) {a b : Float} (hab : [a, b] <:+: view.xs) :
    view.left ≤ a ∧ a ≤ b ∧ b ≤ view.last := by
  obtain ⟨before, after, hsplit⟩ := hab
  -- the two stand at neighbouring positions, which are their numbers in the grid
  rw [xs_eq] at hsplit
  have ha : ((List.range (view.width + 1)).map view.sample)[before.length]? = some a := by
    rw [← hsplit]
    simp
  have hb : ((List.range (view.width + 1)).map view.sample)[before.length + 1]? = some b := by
    rw [← hsplit]
    simp
  rw [List.getElem?_map, Option.map_eq_some_iff] at ha hb
  obtain ⟨i, hi, rfl⟩ := ha
  obtain ⟨j, hj, rfl⟩ := hb
  obtain ⟨-, rfl⟩ := List.getElem?_eq_some_iff.mp hi
  obtain ⟨hlt, rfl⟩ := List.getElem?_eq_some_iff.mp hj
  rw [List.length_range] at hlt
  rw [List.getElem_range, List.getElem_range]
  have hle : before.length + 1 ≤ view.width := Nat.lt_succ_iff.mp hlt
  exact ⟨h.left_le_sample (Nat.le_of_succ_le hle), h.sample_le (Nat.le_succ _) hle,
    h.sample_le hle (Nat.le_refl _)⟩

/-- Between neighbouring samples bisection stays between them. -/
theorem bisect_between (h : view.Spans) {m : Type → Type} [Monad m] {R : Results m}
    {f : Float → m Float} {rounds : ℤ} {a b root : Float} (hab : [a, b] <:+: view.xs)
    (hroot : R.Gives (Root.bisect f rounds a b) (some root)) : a ≤ root ∧ root ≤ b := by
  obtain ⟨hleft, hle, hlast⟩ := h.neighbours hab
  exact Root.bisect_between
    (isFinite_add_self_of_between h.left h.last hleft (le_trans_of hle hlast))
    (isFinite_add_self_of_between h.left h.last (le_trans_of hleft hle) hlast) hle hroot

end Spans

/-- A place from the left edge to the right edge or to the last sample. -/
def Reaches (view : Viewport) (x : Float) : Prop := view.left ≤ x ∧ (x ≤ view.right ∨ x ≤ view.last)

theorem reaches_of_containsX {x : Float} (h : view.containsX x = true) : view.Reaches x := by
  unfold containsX at h
  rw [Bool.and_eq_true, decide_eq_true_iff, decide_eq_true_iff] at h
  exact ⟨h.1, .inl h.2⟩

end Viewport

/-! ## Where points are found -/

namespace Graph
variable {m : Type → Type} [Monad m] {R : Results m} {view : Viewport} {rounds : ℤ} {p : Point}
  {points : List Point}

theorem reaches_root (h : view.Spans) {f : Float → m Float} {root : Float} {roots : List Float}
    (hroots : R.Gives (Root.signChanges f rounds view.xs) roots) (hroot : root ∈ roots) :
    view.Reaches root := by
  obtain ⟨a, b, v, w, hab, -, -, -, hbisect⟩ := Root.mem_signChanges hroots hroot
  obtain ⟨hleft, -, hlast⟩ := h.neighbours hab
  obtain ⟨hlower, hupper⟩ := h.bisect_between hab hbisect
  exact ⟨le_trans_of hleft hlower, .inr (le_trans_of hupper hlast)⟩

theorem reaches_of_shows {limits : Option Limits} {place : Float} (h : shows limits place view = true) :
    view.Reaches place := by
  unfold shows at h
  rw [Bool.and_eq_true] at h
  exact Viewport.reaches_of_containsX h.2

theorem reaches_of_mem_intercepts (h : view.Spans) {graph : Graph m}
    (hpoints : R.Gives (graph.intercepts rounds view) points) (hp : p ∈ points) : view.Reaches p.x := by
  cases graph with
  | vertical limits place =>
    rw [intercepts] at hpoints
    rw [R.of_pure hpoints] at hp
    split at hp
    · next hshows =>
      obtain rfl := List.mem_singleton.mp hp
      exact reaches_of_shows hshows
    · cases hp
  | curve limits value =>
    obtain ⟨onY, onX, hy, hx, rfl⟩ := of_intercepts_curve hpoints
    rcases List.mem_append.mp hp with hp | hp
    · obtain ⟨hview, hplace, -⟩ := mem_yIntercept hy hp
      rw [hplace]
      exact Viewport.reaches_of_containsX hview
    · obtain ⟨roots, hroots, hroot, -⟩ := mem_xIntercepts hx hp
      exact reaches_root h hroots hroot

theorem reaches_of_mem_verticalCrossing {limits : Option Limits} {place : Float} {value : Float → m Float}
    (hpoints : R.Gives (verticalCrossing limits place value view) points) (hp : p ∈ points) :
    view.Reaches p.x := by
  obtain ⟨hshows, hplace, -⟩ := mem_verticalCrossing hpoints hp
  rw [hplace]
  exact reaches_of_shows hshows

theorem reaches_of_mem_crossings [LawfulMonad m] (h : view.Spans) {a b : Graph m}
    (hpoints : R.Gives (a.crossings rounds view b) points) (hp : p ∈ points) : view.Reaches p.x := by
  cases a with
  | vertical limits place =>
    cases b with
    | vertical _ _ =>
      rw [crossings] at hpoints
      rw [R.of_pure hpoints] at hp
      cases hp
    | curve _ _ => exact reaches_of_mem_verticalCrossing hpoints hp
  | curve limits value =>
    cases b with
    | vertical _ _ => exact reaches_of_mem_verticalCrossing hpoints hp
    | curve _ _ =>
      obtain ⟨⟨roots, hroots, hroot⟩, -⟩ := mem_curveCrossings hpoints hp
      exact reaches_root h hroots hroot

end Graph

theorem reaches_of_mem_keyPoints {m : Type → Type} [Monad m] [LawfulMonad m] {R : Results m}
    {view : Viewport} (h : view.Spans) {settings : Settings} {graphs : List (Graph m)}
    {points : List Point} {p : Point} (hpoints : R.Gives (keyPoints settings view graphs) points)
    (hp : p ∈ points) : view.Reaches p.x := by
  obtain ⟨found, hfound, hpoints⟩ := R.of_bind hpoints
  rw [R.of_pure hpoints] at hp
  obtain ⟨onAxes, haxes, hfound⟩ := R.of_bind hfound
  obtain ⟨shared, hshared, hfound⟩ := R.of_bind hfound
  have hp := (merge_sublist _ _).mem hp
  rw [R.of_pure hfound, List.mem_append] at hp
  rcases hp with hp | hp
  · obtain ⟨graph, -, list, hlist, hmem⟩ := R.mem_flatten_of_mapM haxes hp
    exact Graph.reaches_of_mem_intercepts h hlist hmem
  · obtain ⟨⟨a, b⟩, -, list, hlist, hmem⟩ := R.mem_flatten_of_mapM hshared hp
    exact Graph.reaches_of_mem_crossings h hlist hmem

/-! ## Points in view -/

/-- Whether a point is in the rectangle of a view. -/
def Viewport.Contains (view : Viewport) (p : Point) : Prop :=
  (view.left ≤ p.x ∧ p.x ≤ view.right) ∧ view.bottom ≤ p.y ∧ p.y ≤ view.top

/-- Points are looked for from the left edge to the right edge, or to the last sample if rounding puts
it beyond, whatever the engine. Their heights are free: the search does not depend on the lower and the
upper edge. So a point is in view if and only if its height is and its place is not beyond the right
edge. -/
theorem contains_reported_iff (engine : Engine) {settings : Settings} {view : Viewport} (h : view.Spans)
    (lines : List Line) (a b : Line) {p : Point}
    (hp : p ∈ (engine.run (keyPoints settings view (lines.map Line.graph))).1 ∨
      p ∈ (engine.run (a.graph.crossings settings.bisectIterations view b.graph)).1) :
    (view.Contains p ↔ p.x ≤ view.right ∧ view.bottom ≤ p.y ∧ p.y ≤ view.top) ∧
    (p.x ≤ view.right ∨ p.x ≤ view.last) ∧
    ∀ bottom top : Float,
      p ∈ (engine.run (keyPoints settings { view with bottom := bottom, top := top }
        (lines.map Line.graph))).1 ∨
      p ∈ (engine.run (a.graph.crossings settings.bisectIterations
        { view with bottom := bottom, top := top } b.graph)).1 := by
  obtain ⟨hleft, hright⟩ : view.Reaches p.x :=
    hp.elim (reaches_of_mem_keyPoints h (Engine.gives_run _ engine))
      (Graph.reaches_of_mem_crossings h (Engine.gives_run _ engine))
  refine ⟨?_, hright, fun _ _ => hp⟩
  rw [Viewport.Contains, and_iff_right hleft]

/-- A view of width and height two around the origin. -/
def squareView : Viewport := ⟨-1.0, 1.0, -1.0, 1.0, 2, by decide, by decide⟩

theorem squareView_spans : squareView.Spans := ⟨by decide, by decide⟩

/-- The square view in one step, so that its edges are the only samples. -/
def twoSamples : Viewport := { squareView with width := 1, width_pos := Nat.one_pos }

/-- A fresh engine without functions. -/
def plainEngine : Engine := Engine.fresh Settings.default FunctionTable.empty

theorem reachable_plainEngine : Engine.Reachable Settings.default FunctionTable.empty plainEngine := .fresh

/-- What that engine finds. -/
def found {α : Type} (inquiry : Inquiry α) : α := (plainEngine.run inquiry).1

/-- What a line draws. -/
def drawn (line : String) : Graph Inquiry := (Line.read line).graph

/-- Two lines that meet in height five are reported there, although the view ends in height one. -/
theorem crossing_is_reported_above_view :
    found ((drawn "5+x").crossings Settings.default.bisectIterations squareView (drawn "5-x")) =
      [⟨0.0, 5.0⟩] ∧
    found (keyPoints Settings.default squareView [drawn "5+x", drawn "5-x"]) = [⟨0.0, 5.0⟩] ∧
    squareView.bottom ≤ squareView.top ∧ ¬ (5.0 : Float) ≤ squareView.top := by
  refine ⟨?_, ?_, ?_, ?_⟩
  · decide +kernel
  · decide +kernel
  · decide +kernel
  · decide +kernel

/-- The condition for two lines that meet in the middle of the view. -/
theorem crossing_in_view : squareView.Spans ∧
    (⟨0.0, 0.5⟩ : Point) ∈ found (keyPoints Settings.default squareView [drawn "0.5+x", drawn "0.5-x"]) ∧
    squareView.Contains ⟨0.0, 0.5⟩ := by
  have hmem : (⟨0.0, 0.5⟩ : Point) ∈
      found (keyPoints Settings.default squareView [drawn "0.5+x", drawn "0.5-x"]) := by decide +kernel
  have hin := contains_reported_iff plainEngine squareView_spans [Line.read "0.5+x", Line.read "0.5-x"]
    (Line.read "0.5+x") (Line.read "0.5-x") (.inl hmem)
  exact ⟨squareView_spans, hmem, hin.1.mpr ⟨by decide +kernel, by decide +kernel, by decide +kernel⟩⟩

end GraphCalc
