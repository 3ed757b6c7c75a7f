import GraphCalc.Proofs.Number.Neighbours
import GraphCalc.Proofs.Plot.InView

/-! # Vertical lines in view

A vertical line shows between two heights. They come from the edges of the view and the bounds of
the line, and at an exclusive bound the end is moved to the next double. The move is made from the
bound or from the edge, whichever is further inside, so that a bound outside the view still takes
the edge of the view away. Main notions and statements:

* `Viewport.Sees`: the heights in view that limits allow;
* `Range.cut`, `Range.cut_iff`: the end of the span on a side, and the heights inside of it;
* `Range.Takes`: an edge that is taken away by a bound outside the view;
* `Describes`: whether two ends enclose exactly the doubles with a property;
* `span_describes_iff`: what the span of a vertical line encloses, and when that is all that is seen.
-/

namespace GraphCalc
open Binary64
set_option autoImplicit false

/-! ## The ends of a span -/

namespace Side
variable {side : Side} {v w : Float}

/-- Whether a value is farther outside than another. -/
def Outside (side : Side) (v w : Float) : Prop :=
  match side with
  | lower => v < w
  | upper => w < v

theorem outside_iff (side : Side) (hv : v.isNaN = false) (hw : w.isNaN = false) :
    side.Outside v w ↔ side.depth v < side.depth w := by
  cases side with
  | lower => exact lt_iff_rank hv hw
  | upper => exact (lt_iff_rank hw hv).trans neg_lt_neg_iff.symm

instance : Decidable (side.Outside v w) :=
  match side with
  | lower => inferInstanceAs (Decidable (v < w))
  | upper => inferInstanceAs (Decidable (w < v))

/-- The one of two values that is farther inside. -/
def inner (side : Side) (v w : Float) : Float := if side.Outside v w then w else v

theorem inner_finite (side : Side) (hv : v.isFinite = true) (hw : w.isFinite = true) :
    (side.inner v w).isFinite = true ∧
      side.depth (side.inner v w) = max (side.depth v) (side.depth w) := by
  have houtside := outside_iff side (isNaN_of_isFinite hv) (isNaN_of_isFinite hw)
  unfold inner
  split
  · next h => exact ⟨hw, (max_eq_right (houtside.mp h).le).symm⟩
  · next h => exact ⟨hv, (max_eq_left (Int.not_lt.mp (houtside.not.mp h))).symm⟩

/-- The next double inside. -/
def inward (side : Side) (v : Float) : Float :=
  match side with
  | lower => next v
  | upper => previous v

theorem depth_inward (side : Side) (h : v.isFinite = true) :
    (side.inward v).isNaN = false ∧ side.depth (side.inward v) = side.depth v + 1 := by
  have hrank := isFinite_iff_rank.mp h
  cases side with
  | lower => exact rank_next (isNaN_of_isFinite h) (by omega)
  | upper =>
    obtain ⟨hnan, hstep⟩ := rank_previous (isNaN_of_isFinite h) (by omega)
    exact ⟨hnan, by rw [depth, depth, inward, hstep]; omega⟩

end Side

namespace Range
variable {side : Side} {r : Range} {edge y : Float}

/-- Whether the bounds that a range has are finite. -/
def FiniteBounds (r : Range) : Prop := ∀ side b, r.bound side = some b → b.value.isFinite = true

/-- Whether `y` is the edge of a view on a side where an exclusive bound is farther outside. -/
def Takes (side : Side) (r : Range) (edge y : Float) : Prop :=
  ∃ b, r.bound side = some b ∧ b.inclusive = false ∧ side.Outside b.value edge ∧ (y == edge) = true

/-- The end that a range leaves of a stretch with an edge on a side. -/
def cut (side : Side) (r : Range) (edge : Float) : Float :=
  match side with
  | .lower => Graph.lowEnd r edge
  | .upper => Graph.highEnd r edge

theorem cut_eq : r.cut side edge = match r.bound side with
    | none => edge
    | some b => if b.inclusive then side.inner edge b.value else side.inward (side.inner edge b.value) := by
  cases side with
  | lower =>
    unfold cut Graph.lowEnd bound
    cases r.lower <;> rfl
  | upper =>
    unfold cut Graph.highEnd bound
    cases r.upper <;> rfl

/-- A value is not outside the end if and only if it is outside neither the edge nor the bound, and is
not the edge that is taken. -/
theorem cut_iff (side : Side) (hr : r.FiniteBounds) (hedge : edge.isFinite = true) (hy : y.isNaN = false) :
    (r.cut side edge).isNaN = false ∧ (side.AtLeastAsTight y (r.cut side edge) ↔
      side.AtLeastAsTight y edge ∧ r.isBeyond side y = false ∧ ¬ r.Takes side edge y) := by
  have hnan := isNaN_of_isFinite hedge
  rw [← Bool.not_eq_true (r.isBeyond side y), isBeyond_iff, cut_eq, Takes]
  simp only [Side.atLeastAsTight_iff, hy, hnan, true_and, beq_iff_rank hy hnan,
    ← @Side.depth_eq_iff side]
  cases hbound : r.bound side with
  | none => simp only [hnan, reduceCtorEq, false_and, exists_false, not_false_iff, and_true, true_and]
  | some b =>
    have hfinite := hr side b hbound
    have hb := isNaN_of_isFinite hfinite
    obtain ⟨hinner, hdepth⟩ := side.inner_finite hedge hfinite
    have hinnernan := isNaN_of_isFinite hinner
    simp only [Option.some.injEq, exists_eq_left', Bound.excludes_iff, hy, hb, true_and,
      Side.outside_iff side hb hnan]
    cases hinclusive : b.inclusive with
    | true =>
      simp only [if_true, hinnernan, hdepth, true_and, reduceCtorEq, and_false, or_false, false_and,
        not_false_iff, and_true]
      omega
    | false =>
      obtain ⟨hnext, hstep⟩ := side.depth_inward hinner
      simp only [Bool.false_eq_true, if_false, hnext, hstep, hdepth, true_and, and_true]
      omega

end Range

/-! ## What a span encloses -/

/-- The heights that limits leave to a line. -/
def Limits.heights (limits : Option Limits) : Range := (limits.map Limits.y).getD Range.full

theorem Limits.allow_y (limits : Option Limits) (y : Float) :
    Limits.allow limits .y y = (Limits.heights limits).allows y := by
  cases limits with
  | none => rfl
  | some l => rfl

/-- Whether a height is in view and allowed by limits. -/
def Viewport.Sees (view : Viewport) (limits : Option Limits) (y : Float) : Prop :=
  view.bottom ≤ y ∧ y ≤ view.top ∧ Limits.allow limits .y y = true

/-- Whether a height is an edge of the view that a bound outside the view takes away. -/
def Viewport.Takes (view : Viewport) (limits : Option Limits) (y : Float) : Prop :=
  (Limits.heights limits).Takes .lower view.bottom y ∨ (Limits.heights limits).Takes .upper view.top y

/-- Two ends that enclose exactly the doubles with a property, and are missing exactly if there are
no such doubles. -/
structure Describes (span : Option (Float × Float)) (property : Float → Prop) : Prop where
  encloses : ∀ low high, span = some (low, high) → ∀ y, (low ≤ y ∧ y ≤ high) ↔ property y
  missing : span = none ↔ ¬ ∃ y, property y

section Span
variable {limits : Option Limits} {place : Float} {view : Viewport}

theorem enclosed_iff (hr : (Limits.heights limits).FiniteBounds)
    (hbottom : view.bottom.isFinite = true) (htop : view.top.isFinite = true) (y : Float) :
    (Graph.lowEnd (Limits.heights limits) view.bottom ≤ y ∧
      y ≤ Graph.highEnd (Limits.heights limits) view.top) ↔
      view.Sees limits y ∧ ¬ view.Takes limits y := by
  cases hy : y.isNaN with
  | true =>
    have hnot : ∀ v : Float, ¬ v ≤ y := by
      intro v h
      exact Bool.false_ne_true ((le_iff.mp h).2.1.symm.trans hy)
    exact iff_of_false (fun h => hnot _ h.1) (fun h => hnot _ h.1.1)
  | false =>
    have hlow : Graph.lowEnd (Limits.heights limits) view.bottom ≤ y ↔ _ :=
      (Range.cut_iff .lower hr hbottom hy).2
    have hhigh : y ≤ Graph.highEnd (Limits.heights limits) view.top ↔ _ :=
      (Range.cut_iff .upper hr htop hy).2
    have hsides : (∀ side, (Limits.heights limits).isBeyond side y = false) ↔
        (Limits.heights limits).isBeyond .lower y = false ∧
          (Limits.heights limits).isBeyond .upper y = false :=
      ⟨fun h => ⟨h .lower, h .upper⟩, fun h side => by cases side; exacts [h.1, h.2]⟩
    rw [hlow, hhigh, Viewport.Sees, Viewport.Takes, Limits.allow_y, Range.allows_iff, hsides, not_or,
      Side.AtLeastAsTight, Side.AtLeastAsTight]
    tauto

theorem span_of_shows (h : Graph.shows limits place view = true) :
    (Graph.vertical limits place : Graph Inquiry).span? view =
      let low := Graph.lowEnd (Limits.heights limits) view.bottom
      let high := Graph.highEnd (Limits.heights limits) view.top
      if high < low then none else some (low, high) := by
  rw [Graph.span?, if_pos h]
  rfl

theorem describes_span (h : Graph.shows limits place view = true)
    (hr : (Limits.heights limits).FiniteBounds) (hbottom : view.bottom.isFinite = true)
    (htop : view.top.isFinite = true) :
    Describes ((Graph.vertical limits place : Graph Inquiry).span? view) fun y =>
      view.Sees limits y ∧ ¬ view.Takes limits y := by
  have hzero : (0.0 : Float).isNaN = false := by decide
  have hlow : (Graph.lowEnd (Limits.heights limits) view.bottom).isNaN = false :=
    (Range.cut_iff .lower hr hbottom hzero).1
  have hhigh : (Graph.highEnd (Limits.heights limits) view.top).isNaN = false :=
    (Range.cut_iff .upper hr htop hzero).1
  have henclosed := enclosed_iff hr hbottom htop
  rw [span_of_shows h]
  dsimp only
  generalize Graph.lowEnd (Limits.heights limits) view.bottom = low at *
  generalize Graph.highEnd (Limits.heights limits) view.top = high at *
  have hlt := lt_iff_rank hhigh hlow
  by_cases hempty : high < low
  · rw [if_pos hempty]
    refine ⟨by simp, iff_of_true rfl ?_⟩
    rintro ⟨y, hy⟩
    obtain ⟨hle, hle'⟩ := (henclosed y).mpr hy
    have hranks := (le_iff.mp hle).2.2.trans (le_iff.mp hle').2.2
    exact Int.not_lt.mpr hranks (hlt.mp hempty)
  · rw [if_neg hempty]
    constructor
    · intro low' high' heq y
      obtain ⟨rfl, rfl⟩ := Prod.mk.inj (Option.some.inj heq)
      exact henclosed y
    · have hle : low ≤ high := (le_iff_rank hlow hhigh).mpr (Int.not_lt.mp (hlt.not.mp hempty))
      refine iff_of_false (by simp) (not_not_intro ⟨low, ?_⟩)
      exact (henclosed low).mp ⟨(le_iff_rank hlow hlow).mpr le_rfl, hle⟩

/-- The span of a vertical line encloses the heights that are seen, less an edge of the view that is
taken away. So it is exactly what is seen, unless an exclusive bound outside the view takes an edge
that is seen. -/
theorem span_describes_iff (line : Line) (place : Float) (view : Viewport)
    (hshape : line.shape = .vertical place) (hnumber : place.isNaN = false)
    (hallowed : Limits.allow line.limits .x place = true) (hinside : view.containsX place = true)
    (hbottom : view.bottom.isFinite = true) (htop : view.top.isFinite = true)
    (hbounds : (Limits.heights line.limits).FiniteBounds) :
    let span := line.graph.span? view
    (Describes span fun y => view.Sees line.limits y ∧ ¬ view.Takes line.limits y) ∧
      (Describes span (view.Sees line.limits) ↔
        ∀ y, view.Sees line.limits y → ¬ view.Takes line.limits y) := by
  intro span
  have hspan : span = (Graph.vertical line.limits place : Graph Inquiry).span? view := by
    rw [← Line.graph_of_vertical hshape]
  have hshows : Graph.shows line.limits place view = true := by
    rw [Graph.shows, hnumber, hallowed, hinside]
    rfl
  have hdescribes := describes_span hshows hbounds hbottom htop
  rw [hspan]
  refine ⟨hdescribes, ?_, ?_⟩
  · intro hseen y hy htakes
    cases h : (Graph.vertical line.limits place : Graph Inquiry).span? view with
    | none => exact hseen.missing.mp h ⟨y, hy⟩
    | some ends =>
      have hbetween := (hseen.encloses ends.1 ends.2 h y).mpr hy
      exact ((hdescribes.encloses ends.1 ends.2 h y).mp hbetween).2 htakes
  · intro hkept
    have heq : (fun y => view.Sees line.limits y ∧ ¬ view.Takes line.limits y) =
        view.Sees line.limits := by
      funext y
      exact propext ⟨And.left, fun hy => ⟨hy, hkept y hy⟩⟩
    rwa [heq] at hdescribes

end Span

/-- A line with an open bound below the view. -/
def boundBelowView : Line := Line.read "x = 0 {y > -5}"

/-- The lower edge of the view is seen, as `-5 < -1`, and yet the span begins above it. -/
theorem edge_is_taken_by_bound_below_view :
    boundBelowView.shape = .vertical 0.0 ∧
      boundBelowView.limits = some ⟨Range.full, ⟨some ⟨-5.0, false⟩, none⟩⟩ ∧
      Limits.allow boundBelowView.limits .x 0.0 = true ∧ squareView.containsX 0.0 = true ∧
      squareView.Sees boundBelowView.limits (-1.0) ∧
      (drawn "x = 0 {y > -5}").span? squareView = some (-0.9999999999999999, 1.0) ∧
      ¬ Describes ((drawn "x = 0 {y > -5}").span? squareView)
        (squareView.Sees boundBelowView.limits) := by
  have hshape : boundBelowView.shape = .vertical 0.0 := by decide +kernel
  have hlimits : boundBelowView.limits = some ⟨Range.full, ⟨some ⟨-5.0, false⟩, none⟩⟩ := by
    decide +kernel
  have hspan : (drawn "x = 0 {y > -5}").span? squareView = some (-0.9999999999999999, 1.0) := by
    decide +kernel
  rw [hlimits]
  have hsees : squareView.Sees (some ⟨Range.full, ⟨some ⟨-5.0, false⟩, none⟩⟩) (-1.0) :=
    ⟨by decide, by decide, by decide⟩
  refine ⟨hshape, rfl, by decide, by decide, hsees, hspan, ?_⟩
  intro hdescribes
  have hbetween := (hdescribes.encloses _ _ hspan (-1.0)).mpr hsees
  exact absurd hbetween.1 (by decide)

/-- A line with an open bound inside the view. -/
def boundInView : Line := Line.read "x = 0 {0 < y <= 5}"

theorem bound_in_view_is_spanned :
    boundInView.shape = .vertical 0.0 ∧ (0.0 : Float).isNaN = false ∧
      Limits.allow boundInView.limits .x 0.0 = true ∧ squareView.containsX 0.0 = true ∧
      squareView.bottom.isFinite = true ∧ squareView.top.isFinite = true ∧
      (Limits.heights boundInView.limits).FiniteBounds ∧
      Describes ((drawn "x = 0 {0 < y <= 5}").span? squareView)
        (squareView.Sees boundInView.limits) := by
  have hshape : boundInView.shape = .vertical 0.0 := by decide +kernel
  have hlimits : boundInView.limits =
      some ⟨Range.full, ⟨some ⟨0.0, false⟩, some ⟨5.0, true⟩⟩⟩ := by decide +kernel
  have hallowed : Limits.allow boundInView.limits .x 0.0 = true := by
    rw [hlimits]
    decide
  have hbounds : (Limits.heights boundInView.limits).FiniteBounds := by
    rw [hlimits]
    rintro (_ | _) b ⟨⟩
    all_goals decide
  have hspan := span_describes_iff boundInView 0.0 squareView hshape (by decide) hallowed
    (by decide) (by decide) (by decide) hbounds
  refine ⟨hshape, by decide, hallowed, by decide, by decide, by decide, hbounds, ?_⟩
  refine hspan.2.mpr ?_
  intro y _ htakes
  rw [Viewport.Takes, hlimits] at htakes
  rcases htakes with ⟨b, hb, -, hlt, -⟩ | ⟨b, hb, hexclusive, -⟩
  · obtain rfl := Option.some.inj hb
    exact absurd hlt (by decide)
  · obtain rfl := Option.some.inj hb
    exact Bool.false_ne_true hexclusive.symm

end GraphCalc
