import GraphCalc.Plot.KeyPoint
import GraphCalc.Proofs.Eval.Inquiry
import Mathlib

/-! # Merged key points

Key points are merged in one pass: a point is dropped if it is close to one that was kept before.
Distances to the points kept decide, so nothing is asked of the distance but that it can be compared
with the radius. Main notions and statements:

* `mergeInto_append`: merging a list in two parts;
* `merge_eq_self_of_far`: a list whose points are far from each other stays as it is;
* `pairs_eq`: the pairs of members, by their positions;
* `keyPoints_separated_covering_stable`: what is kept is separated, covers all candidates, and is not
  changed by a second merging.
-/

namespace GraphCalc
set_option autoImplicit false

/-! ## One pass -/

/-- A point is farther than the radius from an earlier one. -/
def Far (radius : Float) (earlier later : Point) : Prop := ¬ later.distance earlier ≤ radius

section Merge
variable (radius : Float)

theorem mergeInto_cons_of_close {kept : List Point} {p q : Point} (hq : q ∈ kept)
    (h : p.distance q ≤ radius) (rest : List Point) :
    mergeInto radius kept (p :: rest) = mergeInto radius kept rest := by
  rw [mergeInto, if_pos (List.any_eq_true.mpr ⟨q, hq, decide_eq_true h⟩)]

theorem mergeInto_cons_of_far {kept : List Point} {p : Point} (h : ∀ q ∈ kept, Far radius q p)
    (rest : List Point) :
    mergeInto radius kept (p :: rest) = mergeInto radius (kept ++ [p]) rest := by
  have hnone : ¬ (kept.any fun q => decide (p.distance q ≤ radius)) = true := by
    rw [List.any_eq_true]
    rintro ⟨q, hq, hclose⟩
    exact h q hq (of_decide_eq_true hclose)
  rw [mergeInto, if_neg hnone]

/-- The next point is close to one kept before, or far from all of them. -/
theorem close_or_far (kept : List Point) (p : Point) :
    (∃ q ∈ kept, p.distance q ≤ radius) ∨ ∀ q ∈ kept, Far radius q p := by
  by_cases h : ∃ q ∈ kept, p.distance q ≤ radius
  · exact .inl h
  · exact .inr fun q hq hclose => h ⟨q, hq, hclose⟩

theorem mergeInto_append (kept before after : List Point) :
    mergeInto radius kept (before ++ after) =
      mergeInto radius (mergeInto radius kept before) after := by
  induction before generalizing kept with
  | nil => rfl
  | cons p before ih =>
    rcases close_or_far radius kept p with ⟨q, hq, hclose⟩ | hfar
    · rw [List.cons_append, mergeInto_cons_of_close radius hq hclose,
        mergeInto_cons_of_close radius hq hclose, ih]
    · rw [List.cons_append, mergeInto_cons_of_far radius hfar, mergeInto_cons_of_far radius hfar, ih]

/-- What was kept stays, and what is added comes from the list, in its order. -/
theorem mergeInto_eq (kept points : List Point) :
    ∃ added, mergeInto radius kept points = kept ++ added ∧ added.Sublist points := by
  induction points generalizing kept with
  | nil => exact ⟨[], by rw [mergeInto, List.append_nil], .slnil⟩
  | cons p rest ih =>
    rcases close_or_far radius kept p with ⟨q, hq, hclose⟩ | hfar
    · obtain ⟨added, heq, hsub⟩ := ih kept
      exact ⟨added, by rw [mergeInto_cons_of_close radius hq hclose, heq], hsub.cons p⟩
    · obtain ⟨added, heq, hsub⟩ := ih (kept ++ [p])
      refine ⟨p :: added, ?_, hsub.cons_cons p⟩
      rw [mergeInto_cons_of_far radius hfar, heq, List.append_assoc, List.singleton_append]

theorem mergeInto_pairwise (kept points : List Point) (h : kept.Pairwise (Far radius)) :
    (mergeInto radius kept points).Pairwise (Far radius) := by
  induction points generalizing kept with
  | nil => exact h
  | cons p rest ih =>
    rcases close_or_far radius kept p with ⟨q, hq, hclose⟩ | hfar
    · rw [mergeInto_cons_of_close radius hq hclose]
      exact ih kept h
    · rw [mergeInto_cons_of_far radius hfar]
      refine ih (kept ++ [p]) (List.pairwise_append.mpr ⟨h, List.pairwise_singleton _ p, ?_⟩)
      intro q hq r hr
      rw [List.mem_singleton.mp hr]
      exact hfar q hq

theorem mergeInto_eq_append_of_far (kept points : List Point)
    (h : (kept ++ points).Pairwise (Far radius)) :
    mergeInto radius kept points = kept ++ points := by
  induction points generalizing kept with
  | nil => rw [mergeInto, List.append_nil]
  | cons p rest ih =>
    have hfar : ∀ q ∈ kept, Far radius q p := fun q hq =>
      (List.pairwise_append.mp h).2.2 q hq p List.mem_cons_self
    rw [mergeInto_cons_of_far radius hfar, ih]
    · rw [List.append_assoc, List.singleton_append]
    · rwa [List.append_assoc, List.singleton_append]

/-! ## Merged lists -/

variable (points : List Point)

theorem merge_sublist : (merge radius points).Sublist points := by
  obtain ⟨added, heq, hsub⟩ := mergeInto_eq radius [] points
  rwa [merge, heq, List.nil_append]

theorem merge_pairwise : (merge radius points).Pairwise (Far radius) :=
  mergeInto_pairwise radius [] points .nil

theorem merge_eq_self_of_far {points : List Point} (h : points.Pairwise (Far radius)) :
    merge radius points = points :=
  mergeInto_eq_append_of_far radius [] points h

theorem merge_head : (merge radius points).head? = points.head? := by
  cases points with
  | nil => rfl
  | cons p rest =>
    obtain ⟨added, heq, -⟩ := mergeInto_eq radius [p] rest
    rw [merge, mergeInto_cons_of_far radius (fun q hq => absurd hq List.not_mem_nil),
      List.nil_append, heq]
    rfl

/-- A point is kept or close to one that is kept of those before it. -/
theorem merge_covers (before after : List Point) (p : Point) :
    p ∈ merge radius (before ++ p :: after) ∨
    ∃ q ∈ merge radius (before ++ p :: after), q ∈ before ∧ p.distance q ≤ radius := by
  have hsplit : merge radius (before ++ p :: after) =
      mergeInto radius (merge radius before) (p :: after) := mergeInto_append radius [] before _
  -- what is kept of the points before `p` decides on `p`, and is kept to the end
  rcases close_or_far radius (merge radius before) p with ⟨q, hq, hclose⟩ | hfar
  · obtain ⟨added, heq, -⟩ := mergeInto_eq radius (merge radius before) after
    rw [hsplit, mergeInto_cons_of_close radius hq hclose, heq]
    exact .inr ⟨q, List.mem_append_left _ hq, (merge_sublist radius before).mem hq, hclose⟩
  · obtain ⟨added, heq, -⟩ := mergeInto_eq radius (merge radius before ++ [p]) after
    rw [hsplit, mergeInto_cons_of_far radius hfar, heq]
    exact .inl (List.mem_append_left _ (List.mem_append_right _ List.mem_cons_self))

end Merge

/-! ## Pairs -/

theorem pairs_ofFn {α : Type} {n : ℕ} (f : Fin n → α) :
    pairs (List.ofFn f) = (List.finRange n).flatMap fun i =>
      ((List.finRange n).filter (i < ·)).map fun j => (f i, f j) := by
  induction n with
  | zero => rfl
  | succ n ih =>
    have hfirst : ((List.finRange n).map Fin.succ).filter (0 < ·) = (List.finRange n).map Fin.succ :=
      List.filter_eq_self.mpr fun k hk => by
        obtain ⟨j, -, rfl⟩ := List.mem_map.mp hk
        exact decide_eq_true (Fin.succ_pos j)
    have hlater : ∀ i : Fin n, ((List.finRange n).map Fin.succ).filter (i.succ < ·) =
        ((List.finRange n).filter (i < ·)).map Fin.succ := fun i => by
      rw [List.filter_map]
      congr 1
      exact List.filter_congr fun j _ => by simp
    rw [List.ofFn_succ, pairs, ih, List.finRange_succ, List.flatMap_cons, List.flatMap_map,
      List.filter_cons_of_neg (by simp), hfirst, List.map_map, List.ofFn_eq_map, List.map_map]
    congr 1
    refine List.flatMap_congr fun i _ => ?_
    rw [List.filter_cons_of_neg (by simp), hlater, List.map_map]
    rfl

theorem pairs_eq {α : Type} (l : List α) :
    pairs l = (List.finRange l.length).flatMap fun i =>
      ((List.finRange l.length).filter (i < ·)).map fun j => (l[i], l[j]) := by
  have hself : List.ofFn (fun i : Fin l.length => l[i]) = l := List.ofFn_getElem
  conv_lhs => rw [← hself, pairs_ofFn]

/-! ## Key points -/

/-- The candidates: the intercepts of all graphs in order, then the crossings of the pairs of graphs,
ordered by their positions. -/
theorem candidates_eq {m : Type → Type} [Monad m] (rounds : ℤ) (view : Viewport)
    (graphs : List (Graph m)) :
    candidates rounds view graphs = do
      let onAxes ← graphs.mapM (Graph.intercepts rounds view)
      let shared ← ((List.finRange graphs.length).flatMap fun i =>
        ((List.finRange graphs.length).filter (i < ·)).map fun j => (graphs[i], graphs[j])).mapM
          fun pair => pair.1.crossings rounds view pair.2
      return onAxes.flatten ++ shared.flatten := by
  rw [candidates, pairs_eq]

/-- The key points that an engine finds are separated, they cover all candidates, and merging them once
more changes nothing. They are in the order of the candidates and begin with the first one. -/
theorem keyPoints_separated_covering_stable (engine : Engine) (settings : Settings) (view : Viewport)
    (lines : List Line) :
    let graphs := lines.map Line.graph
    let candidates := (engine.run do
      let onAxes ← graphs.mapM (Graph.intercepts settings.bisectIterations view)
      let shared ← ((List.finRange graphs.length).flatMap fun i =>
        ((List.finRange graphs.length).filter (i < ·)).map fun j => (graphs[i], graphs[j])).mapM
          fun (a, b) => a.crossings settings.bisectIterations view b
      return onAxes.flatten ++ shared.flatten).1
    let radius := settings.mergeRadius * view.step
    let points := (engine.run (keyPoints settings view graphs)).1
    points.Sublist candidates ∧ points.head? = candidates.head? ∧
    points.Pairwise (fun earlier later => ¬ later.distance earlier ≤ radius) ∧
    (∀ before p after, candidates = before ++ p :: after →
      p ∈ points ∨ ∃ q ∈ points, q ∈ before ∧ p.distance q ≤ radius) ∧
    merge radius points = points := by
  intro graphs candidates radius points
  have hpoints : points = merge radius candidates := by
    simp only [points, candidates, keyPoints, candidates_eq, Engine.run_bind, Engine.run_pure, radius]
  have hfar : points.Pairwise (Far radius) := hpoints ▸ merge_pairwise radius candidates
  refine ⟨hpoints ▸ merge_sublist radius candidates, hpoints ▸ merge_head radius candidates, hfar, ?_,
    merge_eq_self_of_far radius hfar⟩
  intro before p after hsplit
  rw [hpoints, hsplit]
  exact merge_covers radius before after p

end GraphCalc
