import GraphCalc.Proofs.Plot.InView

/-! # Roots and their cells

The cells of a grid lie between neighbouring samples. Each of them gives one root at most, which lies
inside it; so the roots come out in the order of their cells. Main statements:

* `run_signChanges_eq_flatMap`: the roots on a list, cell by cell;
* `abs_value_le_of_bisect`: a function is not larger at a root than at both ends of the cell;
* `run_signChanges_pairwise`: roots are in order if the places are and no root leaves its cell;
* `roots_in_cells`: the roots that are found on the samples of a view.
-/

namespace GraphCalc.Root
set_option autoImplicit false

/-! ## Cells of a list -/

/-- The ends of a cell are neighbours. -/
theorem infix_of_mem_zip_tail {α : Type} {places : List α} {a b : α} (h : (a, b) ∈ places.zip places.tail) :
    [a, b] <:+: places := by
  induction places with
  | nil => cases h
  | cons c places ih =>
    cases places with
    | nil => cases h
    | cons d rest =>
      rcases List.mem_cons.mp h with heq | hmem
      · obtain ⟨rfl, rfl⟩ := Prod.mk.inj heq
        exact (List.prefix_append [a, b] rest).isInfix
      · exact (ih hmem).trans (List.suffix_cons c _).isInfix

section Cells
variable {α : Type} [Scalar α] {f : α → α} {rounds : ℤ}

theorem run_signChanges_eq_flatMap (places : List α) : Id.run (signChanges f rounds places) =
    (places.zip places.tail).flatMap fun cell => ofPair f rounds cell.1 cell.2 := by
  induction places with
  | nil => rfl
  | cons a places ih =>
    cases places with
    | nil => rfl
    | cons b rest =>
      rw [run_signChanges_cons_cons, ih]
      rfl

theorem length_ofPair_le (a b : α) : (ofPair f rounds a b).length ≤ 1 := by
  rw [ofPair_eq]
  split
  · cases Id.run (bisect f rounds a b) <;> simp
  · exact Nat.zero_le 1

end Cells

/-! ## Cells of a grid -/

section Doubles
open Binary64
variable {f : Float → Float} {rounds : ℤ} {root : Float}

theorem abs_value_largerMagnitude_le {v w : Float} (hv : v.isFinite = true) (hw : w.isFinite = true) :
    (largerMagnitude v w).isFinite = true ∧ value (largerMagnitude v w) ≤ max |value v| |value w| := by
  unfold largerMagnitude
  split
  · exact ⟨(isFinite_abs (isNaN_of_isFinite hw)).trans hw, (value_abs hw).le.trans (le_max_right _ _)⟩
  · exact ⟨(isFinite_abs (isNaN_of_isFinite hv)).trans hv, (value_abs hv).le.trans (le_max_left _ _)⟩

theorem abs_value_le_of_bisect {a b : Float} (h : Id.run (bisect f rounds a b) = some root) :
    (f root).isFinite = true ∧ |value (f root)| ≤ max |value (f a)| |value (f b)| := by
  obtain ⟨-, -, rfl, rfl, ha, hb, ⟨-, rfl⟩ | ⟨-, -, -, -, rfl, hroot, hless⟩⟩ :=
    of_bisect (R := Results.exact) h
  · exact ⟨ha, le_max_left _ _⟩
  replace hroot : (f root).isFinite = true := hroot
  obtain ⟨hfinite, hle⟩ := abs_value_largerMagnitude_le ha hb
  have habs : (f root).abs.isFinite = true := (isFinite_abs (isNaN_of_isFinite hroot)).trans hroot
  have hnot : ¬ largerMagnitude (f a) (f b) < (f root).abs := of_decide_eq_false hless
  have hrank : rank (f root).abs ≤ rank (largerMagnitude (f a) (f b)) := not_lt.mp fun hlt =>
    hnot (lt_iff.mpr ⟨isNaN_of_isFinite hfinite, isNaN_of_isFinite habs, hlt⟩)
  refine ⟨hroot, ?_⟩
  rw [← value_abs hroot]
  exact (value_le_value habs hfinite hrank).trans hle

theorem run_signChanges_pairwise {places : List Float} (hsorted : places.Pairwise (· ≤ ·))
    (hcells : ∀ a b, [a, b] <:+: places → ∀ root, Id.run (bisect f rounds a b) = some root →
      a ≤ root ∧ root ≤ b) :
    (Id.run (signChanges f rounds places)).Pairwise (· ≤ ·) := by
  induction places with
  | nil => exact List.Pairwise.nil
  | cons a places ih =>
    cases places with
    | nil => exact List.Pairwise.nil
    | cons b rest =>
      have htail : (b :: rest).Pairwise (· ≤ ·) := hsorted.tail
      have hab : a ≤ b := List.rel_of_pairwise_cons hsorted List.mem_cons_self
      have hfirst (r : Float) (hr : r ∈ ofPair f rounds a b) : r ≤ b :=
        (hcells a b (List.prefix_append [a, b] rest).isInfix r (mem_ofPair.mp hr).2).2
      -- a later cell starts at `b` or behind it
      have hrest (r : Float) (hr : r ∈ Id.run (signChanges f rounds (b :: rest))) : b ≤ r := by
        obtain ⟨c, d, -, -, hcd, -, -, -, hbisect⟩ := mem_signChanges (R := Results.exact) rfl hr
        have hc : b ≤ c := by
          rcases List.mem_cons.mp (hcd.subset List.mem_cons_self) with rfl | hmem
          · exact le_iff.mpr ⟨(le_iff.mp hab).2.1, (le_iff.mp hab).2.1, le_rfl⟩
          · exact List.rel_of_pairwise_cons htail hmem
        exact le_trans_of hc (hcells c d (hcd.trans (List.suffix_cons a _).isInfix) r hbisect).1
      rw [run_signChanges_cons_cons, List.pairwise_append]
      refine ⟨?_, ih htail fun c d hcd => hcells c d (hcd.trans (List.suffix_cons a _).isInfix),
        fun r hr r' hr' => le_trans_of (hfirst r hr) (hrest r' hr')⟩
      rw [ofPair_eq]
      split
      · cases Id.run (bisect f rounds a b) <;> simp
      · exact List.Pairwise.nil

theorem pairwise_xs {view : Viewport} (h : view.Spans) : view.xs.Pairwise (· ≤ ·) := by
  rw [Viewport.xs_eq]
  exact pairwise_places h.sample_le

/-- Each cell gives one root at most, where the function is finite and not larger than at both ends. In a
view in which no sum of two samples overflows the root lies in its cell, and the roots are in order. -/
theorem roots_in_cells (view : Viewport) (f : Float → Float) (rounds : ℤ) :
    Id.run (signChanges f rounds view.xs) =
      (view.xs.zip view.xs.tail).flatMap (fun cell => ofPair f rounds cell.1 cell.2) ∧
    (∀ cell ∈ view.xs.zip view.xs.tail, (ofPair f rounds cell.1 cell.2).length ≤ 1 ∧
      ∀ root ∈ ofPair f rounds cell.1 cell.2, (f root).isFinite = true ∧
        |value (f root)| ≤ max |value (f cell.1)| |value (f cell.2)|) ∧
    (view.Spans →
      (∀ cell ∈ view.xs.zip view.xs.tail, ∀ root ∈ ofPair f rounds cell.1 cell.2,
        cell.1 ≤ root ∧ root ≤ cell.2) ∧
      (Id.run (signChanges f rounds view.xs)).Pairwise (· ≤ ·)) := by
  refine ⟨run_signChanges_eq_flatMap _, fun cell _ => ⟨length_ofPair_le _ _, fun root hroot => ?_⟩,
    fun h => ⟨fun cell hcell root hroot => ?_, ?_⟩⟩
  · exact abs_value_le_of_bisect (mem_ofPair.mp hroot).2
  · exact h.bisect_between (R := Results.exact) (infix_of_mem_zip_tail hcell) (mem_ofPair.mp hroot).2
  · exact run_signChanges_pairwise (pairwise_xs h) fun a b hab root =>
      h.bisect_between (R := Results.exact) hab

/-- A parabola crosses the axis in both cells of the square view, at minus and plus a half; two rounds
come near to both. -/
theorem parabola_has_root_in_each_cell : squareView.Spans ∧
    Id.run (signChanges (fun x => x * x - 0.25) 2 squareView.xs) = [-0.625, 0.375] ∧
    (Id.run (signChanges (fun x => x * x - 0.25) 2 squareView.xs)).Pairwise (· ≤ ·) ∧
    ∀ root ∈ ofPair (fun x => x * x - 0.25) 2 (-1.0) 0.0, -1.0 ≤ root ∧ root ≤ 0.0 := by
  obtain ⟨-, -, hspans⟩ := roots_in_cells squareView (fun x => x * x - 0.25) 2
  obtain ⟨hcells, hpairwise⟩ := hspans squareView_spans
  have hxs : squareView.xs = [-1.0, 0.0, 1.0] := by decide
  have hcell : ((-1.0 : Float), (0.0 : Float)) ∈ squareView.xs.zip squareView.xs.tail := by
    rw [hxs]
    exact List.mem_cons_self
  exact ⟨squareView_spans, by decide +kernel, hpairwise, fun root hroot => hcells _ hcell root hroot⟩

end Doubles
end GraphCalc.Root
