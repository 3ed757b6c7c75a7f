import GraphCalc.Area.Shading
import GraphCalc.Proofs.Eval.Nesting
import GraphCalc.Proofs.Plot.InView
import GraphCalc.Proofs.Plot.Runs

/-! # Shading polygons

The area of an integral is shaded over the part of its interval that is in view. Each run of finite
samples there gives one polygon, closed on the axis, and the order in which the bounds are written
plays no part. Main notions and statements:

* `finitePair`: two numbers if both are finite, which the bounds of an integral are;
* `Clip.between`: the part in view of the interval between two bounds, whether or not it is empty;
* `Clip.Closes`: a polygon over a stretch of samples, closed on the axis;
* `clip_comm`, `IntegralCall.answered_shading_exchanged`: exchanged bounds are shaded alike;
* `Engine.shading_closes_runs`: the polygons of an integral are its runs of finite samples, closed.
-/

namespace GraphCalc
open Binary64
set_option autoImplicit false

/-! ## Bounds -/

/-- Two numbers, if both are finite. -/
def finitePair (a b : Float) : Option (Float × Float) :=
  if a.isFinite && b.isFinite then some (a, b) else none

section FinitePair
variable {a b : Float}

theorem finitePair_of_finite (ha : a.isFinite = true) (hb : b.isFinite = true) :
    finitePair a b = some (a, b) := by
  rw [finitePair, ha, hb, Bool.and_self, if_pos rfl]

theorem finitePair_eq_none_iff :
    finitePair a b = none ↔ a.isFinite = false ∨ b.isFinite = false := by
  cases ha : a.isFinite with
  | true => cases hb : b.isFinite <;> simp [finitePair, ha, hb]
  | false => simp [finitePair, ha]

end FinitePair

namespace IntegralCall

theorem answered_bounds (call : IntegralCall) (reply : Question → Except EvalError Float) :
    call.bounds.answered reply = finitePair ((Inquiry.valueAt call.lower 0.0).answered reply)
      ((Inquiry.valueAt call.upper 0.0).answered reply) := by
  simp only [bounds, Inquiry.answered_bind, Inquiry.answered_pure, finitePair]

end IntegralCall

/-! ## Bounds in either order -/

def lesser (a b : Float) : Float := if b < a then b else a

def greater (a b : Float) : Float := if a < b then b else a

section Order
variable {a b : Float}

/-- Bounds that are no undefined values are equal or in one of two orders. -/
theorem lt_or_lt_of_beq_false (ha : a.isNaN = false) (hb : b.isNaN = false)
    (hne : (a == b) = false) : a < b ∧ ¬ b < a ∨ b < a ∧ ¬ a < b := by
  rw [← Bool.not_eq_true, beq_iff_rank ha hb] at hne
  rw [lt_iff_rank ha hb, lt_iff_rank hb ha]
  omega

theorem lesser_comm (ha : a.isNaN = false) (hb : b.isNaN = false) (hne : (a == b) = false) :
    lesser a b = lesser b a := by
  rcases lt_or_lt_of_beq_false ha hb hne with ⟨hlt, hnot⟩ | ⟨hlt, hnot⟩
  · rw [lesser, lesser, if_neg hnot, if_pos hlt]
  · rw [lesser, lesser, if_pos hlt, if_neg hnot]

theorem greater_comm (ha : a.isNaN = false) (hb : b.isNaN = false) (hne : (a == b) = false) :
    greater a b = greater b a := by
  rcases lt_or_lt_of_beq_false ha hb hne with ⟨hlt, hnot⟩ | ⟨hlt, hnot⟩
  · rw [greater, greater, if_pos hlt, if_neg hnot]
  · rw [greater, greater, if_neg hnot, if_pos hlt]

end Order

/-! ## The part in view -/

namespace Clip

/-- The interval between two bounds, cut to the edges of a view. -/
def between (a b : Float) (view : Viewport) : Clip :=
  let start := if lesser a b < view.left then view.left else lesser a b
  let finish := if view.right < greater a b then view.right else greater a b
  let samples := max 2 view.width
  ⟨start, finish, samples, (finish - start) / Float.ofNat samples⟩

end Clip

/-- Whether the interval between two bounds has a place between the edges of a view. -/
def Viewport.Meets (view : Viewport) (a b : Float) : Prop :=
  view.left ≤ greater a b ∧ lesser a b ≤ view.right

section Clip
variable {a b : Float} {view : Viewport}

theorem clip_eq (a b : Float) (view : Viewport) : clip a b view =
    if a == b then none
    else if greater a b < view.left || view.right < lesser a b then none
    else if (Clip.between a b view).step ≤ 0.0 then none
    else some (Clip.between a b view) := rfl

theorem clip_comm (ha : a.isNaN = false) (hb : b.isNaN = false) (view : Viewport) :
    clip a b view = clip b a view := by
  cases hne : a == b with
  | true => simp only [clip_eq, beq_swap b a, hne, if_true]
  | false =>
    have hlesser := lesser_comm ha hb hne
    have hgreater := greater_comm ha hb hne
    have hbetween : Clip.between a b view = Clip.between b a view := by
      simp only [Clip.between, hlesser, hgreater]
    rw [clip_eq, clip_eq, beq_swap b a, hlesser, hgreater, hbetween]

theorem clip_of_meets (hne : (a == b) = false) (hmeets : view.Meets a b)
    (hstep : 0.0 < (Clip.between a b view).step) :
    clip a b view = some (Clip.between a b view) := by
  have hout : ¬ (greater a b < view.left || view.right < lesser a b) = true := by
    rw [Bool.or_eq_true, decide_eq_true_iff, decide_eq_true_iff, not_or]
    exact ⟨not_lt_of hmeets.1, not_lt_of hmeets.2⟩
  have hpositive : ¬ (Clip.between a b view).step ≤ 0.0 := fun h => not_lt_of h hstep
  rw [clip_eq, if_neg (by simp [hne]), if_neg hout, if_neg hpositive]

end Clip

/-! ## Polygons -/

namespace Clip

/-- The polygon over a stretch of samples: from the axis below the first sample along all of them,
and back to the axis below the last one or, if there is no further sample, below the end of the part
in view. -/
def Closes (clip : Clip) (samples : List Point) (s : Stretch) (polygon : List Point) : Prop :=
  ∃ first last, samples[s.start]? = some first ∧ samples[s.finish - 1]? = some last ∧
    polygon = ⟨first.x, 0.0⟩ :: s.members samples ++
      [⟨if s.finish = samples.length then clip.finish else last.x, 0.0⟩]

variable {property : Point → Bool} {samples : List Point} {s : Stretch}

theorem closes_polygon (clip : Clip) (h : s.IsRun property samples) :
    clip.Closes samples s (clip.polygon (s.run samples)) := by
  obtain ⟨first, rest, hmembers⟩ := List.exists_cons_of_ne_nil h.members_ne_nil
  have hfirst := h.head?_members
  have hlast := h.getLast?_members
  rw [hmembers, List.head?_cons] at hfirst
  rw [hmembers, List.getLast?_cons, ← List.getLastD_eq_getLast?] at hlast
  refine ⟨first, rest.getLastD first, hfirst.symm, hlast.symm, ?_⟩
  simp only [polygon, Stretch.run, hmembers, beq_iff_eq]

/-- Over the samples of the part in view, the polygons are the runs of finite samples, closed. -/
theorem exists_polygons (clip : Clip) (samples : List Point) : ∃ stretches : List Stretch,
    (∀ s, s ∈ stretches ↔ s.IsRun (fun p => p.y.isFinite) samples) ∧
      (stretches.Pairwise fun s t => s.finish < t.start) ∧
      (stretches.map (·.members samples)).flatten = samples.filter (fun p => p.y.isFinite) ∧
      List.Forall₂ (clip.Closes samples) stretches (clip.polygons samples) := by
  obtain ⟨stretches, hruns, hmem, hpairwise⟩ :=
    exists_stretches (fun p : Point => p.y.isFinite) samples
  refine ⟨stretches, hmem, hpairwise, ?_, ?_⟩
  · rw [← flatten_members_runs, hruns, List.map_map]
    rfl
  · rw [polygons, hruns, List.map_map, List.forall₂_map_right_iff, List.forall₂_same]
    intro s hs
    exact clip.closes_polygon ((hmem s).mp hs)

end Clip

/-! ## Shaded integrals -/

namespace IntegralCall

/-- An integral with its bounds exchanged. -/
def exchanged (call : IntegralCall) : IntegralCall :=
  { call with lower := call.upper, upper := call.lower }

theorem answered_shading (call : IntegralCall) (view : Viewport)
    (reply : Question → Except EvalError Float) :
    (call.shading view).answered reply =
      match call.bounds.answered reply with
      | none => []
      | some (a, b) =>
        match clip a b view with
        | none => []
        | some clip => clip.polygons
            ((Graph.samples (Inquiry.valueAt call.integrand) clip.places).answered reply) := by
  rw [shading, Inquiry.answered_bind]
  rcases call.bounds.answered reply with _ | ⟨a, b⟩
  · rfl
  · dsimp only
    cases clip a b view with
    | none => rfl
    | some clip => rw [Inquiry.answered_bind, Inquiry.answered_pure]

theorem answered_shading_exchanged (call : IntegralCall) (view : Viewport)
    (reply : Question → Except EvalError Float) :
    (call.exchanged.shading view).answered reply = (call.shading view).answered reply := by
  rw [answered_shading, answered_shading, answered_bounds, answered_bounds]
  dsimp only [exchanged]
  generalize (Inquiry.valueAt call.lower 0.0).answered reply = a
  generalize (Inquiry.valueAt call.upper 0.0).answered reply = b
  by_cases hfinite : a.isFinite = true ∧ b.isFinite = true
  · rw [finitePair_of_finite hfinite.1 hfinite.2, finitePair_of_finite hfinite.2 hfinite.1]
    dsimp only
    rw [clip_comm (isNaN_of_isFinite hfinite.2) (isNaN_of_isFinite hfinite.1) view]
  · have hfalse : a.isFinite = false ∨ b.isFinite = false := by
      rwa [not_and_or, Bool.not_eq_true, Bool.not_eq_true] at hfinite
    rw [finitePair_eq_none_iff.mpr hfalse, finitePair_eq_none_iff.mpr hfalse.symm]

end IntegralCall

namespace Engine

/-- The polygons that shade an integral on an engine are its runs of finite samples, each closed on the
axis, with the heights that the engine finds from left to right behind the bounds. They do not depend on
the order in which the bounds are written, on engines with the same settings and functions, unless nesting
cuts off a value in one of the two orders. -/
theorem shading_closes_runs (call : IntegralCall) (view : Viewport) :
    (∀ (engine : Engine) (a b : Float), (engine.run call.bounds).1 = some (a, b) → (a == b) = false →
      view.Meets a b → 0.0 < (Clip.between a b view).step →
      let clip := Clip.between a b view
      let samples := ((engine.run call.bounds).2.run
        (Graph.samples (Inquiry.valueAt call.integrand) clip.places)).1
      samples.map Point.x = clip.places ∧
      ∃ stretches : List Stretch,
        (∀ s, s ∈ stretches ↔ s.IsRun (fun p => p.y.isFinite) samples) ∧
        (stretches.Pairwise fun s t => s.finish < t.start) ∧
        (stretches.map (·.members samples)).flatten = samples.filter (fun p => p.y.isFinite) ∧
        List.Forall₂ (clip.Closes samples) stretches (engine.run (call.shading view)).1) ∧
    ∀ (settings : Settings) (functions : FunctionTable) (engine engine' : Engine),
      Reachable settings functions engine → Reachable settings functions engine' →
      engine.completes (call.shading view) = true →
      engine'.completes (call.exchanged.shading view) = true →
      (engine'.run (call.exchanged.shading view)).1 = (engine.run (call.shading view)).1 := by
  constructor
  · intro engine a b hbounds hne hmeets hstep clip samples
    refine ⟨Graph.places_of_samples (gives_run _ _), ?_⟩
    have hshading : (engine.run (call.shading view)).1 = clip.polygons samples := by
      simp only [IntegralCall.shading, run_bind, hbounds, clip_of_meets hne hmeets hstep, run_pure, clip,
        samples]
    rw [hshading]
    exact clip.exists_polygons samples
  · intro settings functions engine engine' h h' hcompletes hcompletes'
    rw [(h.coherent.run _).2.2 hcompletes, (h'.coherent.run _).2.2 hcompletes',
      IntegralCall.answered_shading_exchanged]

/-- An integral from right to left over a gap in its middle. -/
def acrossGap : IntegralCall := ⟨"1/x", "1", "-1"⟩

/-- Two runs of one sample each: the gap ends the first, and the view the second. With its bounds
exchanged the integral is shaded alike. -/
theorem gap_is_left_unshaded :
    let clip := Clip.between 1.0 (-1.0) squareView
    let samples := ((plainEngine.run acrossGap.bounds).2.run
      (Graph.samples (Inquiry.valueAt acrossGap.integrand) clip.places)).1
    found acrossGap.bounds = some (1.0, -1.0) ∧ ((1.0 : Float) == -1.0) = false ∧
      squareView.Meets 1.0 (-1.0) ∧ 0.0 < clip.step ∧
      found (acrossGap.shading squareView) =
        [[⟨-1.0, 0.0⟩, ⟨-1.0, -1.0⟩, ⟨-1.0, 0.0⟩], [⟨1.0, 0.0⟩, ⟨1.0, 1.0⟩, ⟨1.0, 0.0⟩]] ∧
      (∃ stretches : List Stretch,
        List.Forall₂ (clip.Closes samples) stretches (found (acrossGap.shading squareView))) ∧
      found (acrossGap.exchanged.shading squareView) = found (acrossGap.shading squareView) := by
  intro clip samples
  have hbounds : (plainEngine.run acrossGap.bounds).1 = some (1.0, -1.0) := by decide +kernel
  have hne : ((1.0 : Float) == -1.0) = false := by decide
  have hmeets : squareView.Meets 1.0 (-1.0) := ⟨by decide, by decide⟩
  have hstep : 0.0 < clip.step := by decide
  obtain ⟨hruns, hexchanged⟩ := shading_closes_runs acrossGap squareView
  obtain ⟨-, stretches, -, -, -, hcloses⟩ := hruns plainEngine 1.0 (-1.0) hbounds hne hmeets hstep
  exact ⟨hbounds, hne, hmeets, hstep, by decide +kernel, ⟨stretches, hcloses⟩,
    hexchanged _ _ _ _ reachable_plainEngine reachable_plainEngine (by decide +kernel) (by decide +kernel)⟩

/-- The integral of a call from the call behind 600 signs to the call behind one. -/
def fromDeepCall : IntegralCall := ⟨negatedCall 0, negatedCall 600, negatedCall 1⟩

/-- On a fresh engine its lower bound is cut off, so it is not shaded. With its bounds exchanged the body
is read for the other bound first, and it is. -/
theorem deep_bound_is_found_second :
    ((fresh Settings.default deepTable).run (fromDeepCall.shading squareView)).1 = [] ∧
      ((fresh Settings.default deepTable).run (fromDeepCall.exchanged.shading squareView)).1 =
        [[⟨-1.0, 0.0⟩, ⟨-1.0, euler⟩, ⟨0.0, euler⟩, ⟨1.0, euler⟩, ⟨1.0, 0.0⟩]] := by
  have hfresh := coherent_fresh Settings.default deepTable
  have hcalls : 0 < Settings.default.maxCallDepth := by decide
  have heven : Neg.neg^[600] euler = euler := iterate_neg_euler 300
  constructor
  · obtain ⟨e₁, h₁, hc₁, hu₁⟩ := hfresh.run_negatedCall_of_deep rfl hcalls (k := 600) (by decide) 0.0 rfl
      (by decide)
    obtain ⟨e₂, h₂, -⟩ := hc₁.run_negatedCall_of_read rfl hcalls (k := 1) (by decide) 0.0
      (.inr (by decide))
    have hbounds : (Binary64.nan.isFinite && (Neg.neg^[1] euler).isFinite) = false := by decide
    simp only [IntegralCall.shading, IntegralCall.bounds, fromDeepCall, run_bind, run_pure, h₁, h₂, hbounds]
    rfl
  · obtain ⟨e₁, h₁, hc₁, hk₁⟩ := hfresh.run_negatedCall_of_read rfl hcalls (k := 1) (by decide) 0.0
      (.inr (by decide))
    obtain ⟨e₂, h₂, hc₂, hk₂⟩ := hc₁.run_negatedCall_of_read rfl hcalls (k := 600) (by decide) 0.0
      (.inl hk₁)
    obtain ⟨e₃, h₃, hc₃, hk₃⟩ := hc₂.run_negatedCall_of_read rfl hcalls (k := 0) (by decide) (-1.0)
      (.inl hk₂)
    obtain ⟨e₄, h₄, hc₄, hk₄⟩ := hc₃.run_negatedCall_of_read rfl hcalls (k := 0) (by decide) 0.0
      (.inl hk₃)
    obtain ⟨e₅, h₅, -⟩ := hc₄.run_negatedCall_of_read rfl hcalls (k := 0) (by decide) 1.0 (.inl hk₄)
    have hclip : clip (Neg.neg^[1] euler) euler squareView = some (Clip.between _ _ squareView) :=
      clip_of_meets (by decide) ⟨by decide, by decide⟩ (by decide)
    have hplaces : (Clip.between (Neg.neg^[1] euler) euler squareView).places = [-1.0, 0.0, 1.0] := by
      decide +kernel
    have hbounds : ((Neg.neg^[1] euler).isFinite && euler.isFinite) = true := by decide
    simp only [IntegralCall.shading, IntegralCall.bounds, IntegralCall.exchanged, fromDeepCall, run_bind,
      run_pure, h₁, h₂, heven, hbounds, if_true, hclip, hplaces, Graph.samples, List.mapM_cons,
      List.mapM_nil, h₃, h₄, h₅]
    decide +kernel

end Engine
end GraphCalc
