import GraphCalc.Plot.Graph
import GraphCalc.Proofs.Plot.InView
import GraphCalc.Proofs.Plot.Runs

/-! # Polylines

A curve is drawn as polylines through its samples. They are the runs of finite samples of the grid,
so nothing finite is left out or drawn twice, and no polyline leads over a place where the curve is
not finite. Main statement: `segments_are_finite_runs`.
-/

namespace GraphCalc
set_option autoImplicit false

namespace Graph

/-- The polylines are drawn through the samples that an engine finds over the grid, one after the other. -/
theorem run_segments_curve {line : Line} {base : String} (h : line.shape = .curve base) (engine : Engine)
    (view : Viewport) : (engine.run (line.graph.segments view)).1 =
      polylines (engine.run (samples line.graph.valueAt view.xs)).1 := by
  rw [Line.graph_of_curve h, segments, Engine.run_bind, Engine.run_pure]
  rfl

/-- The polylines of a line `y = …` are the longest stretches of finite samples over the grid, with the
heights that the engine finds from left to right. -/
theorem segments_are_finite_runs (line : Line) (base : String) (engine : Engine) (view : Viewport)
    (h : line.shape = .curve base) :
    let points := (engine.run (samples line.graph.valueAt view.xs)).1
    let segments := (engine.run (line.graph.segments view)).1
    points.map Point.x = view.xs ∧
    ∃ stretches : List Stretch,
      segments = stretches.map (·.members points) ∧
      (∀ s, s ∈ stretches ↔ s.IsRun (fun p => p.y.isFinite) points) ∧
      (∀ segment ∈ segments, segment ≠ []) ∧
      segments.flatten = points.filter (fun p => p.y.isFinite) ∧
      stretches.Pairwise fun s t => ∃ i p, s.finish ≤ i ∧ i < t.start ∧ points[i]? = some p ∧
        p.y.isFinite = false := by
  intro points segments
  have hsegments : segments = (runs (fun p : Point => p.y.isFinite) points).map Run.members :=
    run_segments_curve h engine view
  obtain ⟨stretches, hruns, hmem, hpairwise⟩ :=
    exists_stretches (fun p : Point => p.y.isFinite) points
  have hmembers : segments = stretches.map (·.members points) := by
    rw [hsegments, hruns, List.map_map]
    rfl
  refine ⟨places_of_samples (Engine.gives_run _ engine), stretches, hmembers, hmem, ?_, ?_, ?_⟩
  · intro segment hsegment
    rw [hmembers, List.mem_map] at hsegment
    obtain ⟨s, hs, rfl⟩ := hsegment
    exact ((hmem s).mp hs).members_ne_nil
  · rw [hsegments]
    exact flatten_members_runs _ points
  · refine hpairwise.imp_of_mem ?_
    intro s t hs ht hlt
    exact ((hmem s).mp hs).exists_gap ((hmem t).mp ht) hlt

/-- A line with a gap in the middle of the view. -/
theorem reciprocal_is_drawn_in_order :
    (Line.read "1/x").shape = .curve "1/x" ∧
      found ((drawn "1/x").segments squareView) = [[⟨-1.0, -1.0⟩], [⟨1.0, 1.0⟩]] ∧
      (found ((drawn "1/x").segments squareView)).flatten =
        (found (samples (drawn "1/x").valueAt squareView.xs)).filter (fun p => p.y.isFinite) := by
  have hshape : (Line.read "1/x").shape = .curve "1/x" := rfl
  obtain ⟨-, _, -, -, -, hflatten, -⟩ :=
    segments_are_finite_runs (Line.read "1/x") "1/x" plainEngine squareView hshape
  exact ⟨hshape, by decide +kernel, hflatten⟩

end Graph
end GraphCalc
