import GraphCalc.Proofs.Number.Neighbours
import GraphCalc.Proofs.Plot.InView

/-! # The point under the cursor

The search is one loop that does two things: it leaves at the first vertical line that the cursor hits,
and it keeps the best curve. These do not disturb each other, so it is a search among the vertical lines
and, if that finds nothing, a search among the curves, and the order between lines of the two kinds does
not count. Main notions and statements:

* `Graph.IsHit`, `Graph.IsCandidate`: a vertical line that is hit, and a curve that has a distance;
* `FirstNearest`: the first of the nearest curves in a list;
* `Picks`: the point that is to be found among graphs, and `Picks.unique`: there is one;
* `run_nearestFrom_eq`: the loop as two searches;
* `Best`, `Best.improve`: what the loop keeps, and one round of it;
* `Engine.nearest_picks`: the point that is found under the cursor.
-/

namespace GraphCalc
open Binary64
set_option autoImplicit false

/-! ## Distances -/

theorem Point.isNegative_distance (p q : Point) : isNegative (p.distance q) = false := by
  unfold distance hypotenuse
  split
  · decide
  · split
    · decide
    · exact isNegative_ofRatio _ _

theorem Point.distance_nonneg {p q : Point} (h : (p.distance q).isNaN = false) :
    0.0 ≤ p.distance q := by
  rw [le_iff]
  refine ⟨by decide, h, ?_⟩
  rw [(toNat_of_not_isNegative (isNegative_distance p q)).2]
  exact Int.natCast_nonneg _

theorem Point.distance_lt_infinity {p q : Point} :
    p.distance q < infinity ↔ (p.distance q).isFinite = true := by
  have hrank : rank infinity = infinityBits := by decide
  constructor
  · intro h
    obtain ⟨hnan, -, hlt⟩ := lt_iff.mp h
    by_contra hfinite
    have := rank_eq_infinityBits (distance_nonneg hnan) (Bool.eq_false_iff.mpr hfinite)
    omega
  · intro h
    have hlt := isFinite_iff_rank.mp h
    rw [lt_iff, hrank]
    exact ⟨isNaN_of_isFinite h, by decide, by omega⟩

/-! ## What is to be found -/

namespace Graph

def isVertical {m : Type → Type} : Graph m → Bool
  | vertical _ _ => true
  | curve _ _ => false

/-- Whether a cursor hits a graph: a vertical line at a place that is defined, allowed by its limits and
within the radius. -/
def IsHit (cursor : Point) (radius : Float) : Graph Id → Prop
  | vertical limits place =>
    place.isNaN = false ∧ Limits.allow limits .x place = true ∧ (place - cursor.x).abs ≤ radius
  | curve _ _ => False

/-- The point of a graph over the cursor. -/
def pointOver (cursor : Point) (graph : Graph Id) : Point := ⟨cursor.x, Id.run (graph.valueAt cursor.x)⟩

/-- The distance of the cursor from the point over it. -/
def away (cursor : Point) (graph : Graph Id) : Float := (graph.pointOver cursor).distance cursor

/-- Whether a graph is a curve with a finite value over the cursor, in a distance that is defined. -/
structure IsCandidate (cursor : Point) (graph : Graph Id) : Prop where
  isCurve : graph.isVertical = false
  finite : (graph.pointOver cursor).y.isFinite = true
  defined : (graph.away cursor).isNaN = false

end Graph

/-- Whether a graph is the first of the nearest curves, given the graphs before and after it. -/
structure FirstNearest (cursor : Point) (before : List (Graph Id)) (graph : Graph Id)
    (after : List (Graph Id)) : Prop where
  candidate : graph.IsCandidate cursor
  lt_before : ∀ g ∈ before, g.IsCandidate cursor → graph.away cursor < g.away cursor
  le_after : ∀ g ∈ after, g.IsCandidate cursor → graph.away cursor ≤ g.away cursor

/-- The point under the cursor: on the first vertical line that is hit, in the height of the cursor
within the limits; else on the first of the nearest curves, if its distance is finite and within the
radius; else there is none. -/
inductive Picks (cursor : Point) (radius : Float) (graphs : List (Graph Id)) : Option Point → Prop where
  | vertical {before after : List (Graph Id)} {limits : Option Limits} {place : Float}
      (split : graphs = before ++ .vertical limits place :: after)
      (hit : (Graph.vertical limits place : Graph Id).IsHit cursor radius)
      (first : ∀ g ∈ before, ¬ g.IsHit cursor radius) :
      Picks cursor radius graphs (some ⟨place, Limits.clampY limits cursor.y⟩)
  | curve {before after : List (Graph Id)} {graph : Graph Id}
      (noHit : ∀ g ∈ graphs, ¬ g.IsHit cursor radius)
      (split : graphs = before ++ graph :: after)
      (nearest : FirstNearest cursor before graph after)
      (finite : (graph.away cursor).isFinite = true) (within : graph.away cursor ≤ radius) :
      Picks cursor radius graphs (some (graph.pointOver cursor))
  | nothing (noHit : ∀ g ∈ graphs, ¬ g.IsHit cursor radius)
      (far : ∀ g ∈ graphs, g.IsCandidate cursor → (g.away cursor).isFinite = true →
        ¬ g.away cursor ≤ radius) :
      Picks cursor radius graphs none

/-- Two members of a list are the same one, or one of them stands before the other. -/
theorem same_or_before {α : Type} {before after before' after' : List α} {a a' : α}
    (h : before ++ a :: after = before' ++ a' :: after') :
    a = a' ∨ a ∈ before' ∧ a' ∈ after ∨ a' ∈ before ∧ a ∈ after' := by
  rcases List.append_eq_append_iff.mp h with ⟨middle, hbefore, hafter⟩ | ⟨middle, hbefore, hafter⟩
  · cases middle with
    | nil => exact .inl (List.cons.inj hafter).1
    | cons c middle =>
      obtain ⟨rfl, rfl⟩ := List.cons.inj hafter
      exact .inr (.inl ⟨by simp [hbefore], by simp⟩)
  · cases middle with
    | nil => exact .inl (List.cons.inj hafter).1.symm
    | cons c middle =>
      obtain ⟨rfl, rfl⟩ := List.cons.inj hafter
      exact .inr (.inr ⟨by simp [hbefore], by simp⟩)

section Unique
variable {cursor : Point} {radius : Float} {graphs : List (Graph Id)}

theorem FirstNearest.unique {before after before' after' : List (Graph Id)} {g g' : Graph Id}
    (h : FirstNearest cursor before g after) (h' : FirstNearest cursor before' g' after')
    (hsplit : before ++ g :: after = before' ++ g' :: after') : g = g' := by
  rcases same_or_before hsplit with heq | ⟨hbefore, hafter⟩ | ⟨hbefore, hafter⟩
  · exact heq
  · exact absurd (h'.lt_before g hbefore h.candidate) (not_lt_of (h.le_after g' hafter h'.candidate))
  · exact absurd (h.lt_before g' hbefore h'.candidate) (not_lt_of (h'.le_after g hafter h.candidate))

theorem Picks.unique {answer answer' : Option Point} (h : Picks cursor radius graphs answer)
    (h' : Picks cursor radius graphs answer') : answer = answer' := by
  cases h with
  | vertical hsplit hhit hfirst =>
    cases h' with
    | vertical hsplit' hhit' hfirst' =>
      rcases same_or_before (hsplit.symm.trans hsplit') with heq | ⟨hbefore, -⟩ | ⟨hbefore, -⟩
      · obtain ⟨rfl, rfl⟩ := Graph.vertical.inj heq
        rfl
      · exact absurd hhit (hfirst' _ hbefore)
      · exact absurd hhit' (hfirst _ hbefore)
    | curve hnoHit => exact absurd hhit (hnoHit _ (by simp [hsplit]))
    | nothing hnoHit => exact absurd hhit (hnoHit _ (by simp [hsplit]))
  | curve hnoHit hsplit hnearest hfinite hwithin =>
    cases h' with
    | vertical hsplit' hhit' => exact absurd hhit' (hnoHit _ (by simp [hsplit']))
    | curve _ hsplit' hnearest' =>
      rw [hnearest.unique hnearest' (hsplit.symm.trans hsplit')]
    | nothing _ hfar =>
      exact absurd hwithin (hfar _ (by simp [hsplit]) hnearest.candidate hfinite)
  | nothing hnoHit hfar =>
    cases h' with
    | vertical hsplit' hhit' => exact absurd hhit' (hnoHit _ (by simp [hsplit']))
    | curve _ hsplit' hnearest' hfinite' hwithin' =>
      exact absurd hwithin' (hfar _ (by simp [hsplit']) hnearest'.candidate hfinite')
    | nothing => rfl

end Unique

/-! ## The loop as two searches -/

namespace Graph

/-- The point of a graph that the cursor hits. -/
def hit? (cursor : Point) (radius : Float) : Graph Id → Option Point
  | vertical limits place => hitVertical limits place cursor radius
  | curve _ _ => none

/-- The best point after one more graph; a vertical line does not count. -/
def improve (cursor : Point) (best : Candidate) : Graph Id → Candidate
  | vertical _ _ => best
  | curve limits value => best.improve (Id.run (limitedValue limits value cursor.x)) cursor

end Graph

/-- The best point if it is within the radius. -/
def Candidate.within? (radius : Float) (best : Candidate) : Option Point :=
  best.bind fun (distance, p) => if distance ≤ radius then some p else none

section Loop
variable (cursor : Point) (radius : Float)

theorem run_nearestFrom_eq (best : Candidate) (graphs : List (Graph Id)) :
    Id.run (nearestFrom cursor radius best graphs) =
      (graphs.findSome? (Graph.hit? cursor radius)).or
        ((graphs.foldl (Graph.improve cursor) best).within? radius) := by
  induction graphs generalizing best with
  | nil => rfl
  | cons graph graphs ih =>
    cases graph with
    | curve limits value => exact ih _
    | vertical limits place =>
      rw [nearestFrom, List.findSome?_cons, List.foldl_cons, Graph.hit?, Graph.improve]
      cases hitVertical limits place cursor radius with
      | none => exact ih best
      | some p => rfl

theorem findSome?_filter_isVertical (graphs : List (Graph Id)) :
    (graphs.filter Graph.isVertical).findSome? (Graph.hit? cursor radius) =
      graphs.findSome? (Graph.hit? cursor radius) := by
  induction graphs with
  | nil => rfl
  | cons graph graphs ih =>
    cases graph with
    | curve limits value => exact ih
    | vertical limits place =>
      rw [List.filter_cons_of_pos rfl, List.findSome?_cons, List.findSome?_cons, ih]

theorem foldl_filter_curves (best : Candidate) (graphs : List (Graph Id)) :
    (graphs.filter (!·.isVertical)).foldl (Graph.improve cursor) best =
      graphs.foldl (Graph.improve cursor) best := by
  induction graphs generalizing best with
  | nil => rfl
  | cons graph graphs ih =>
    cases graph with
    | curve limits value => exact ih _
    | vertical limits place => exact ih best

theorem run_nearestFrom_congr (best : Candidate) {graphs other : List (Graph Id)}
    (hvertical : other.filter Graph.isVertical = graphs.filter Graph.isVertical)
    (hcurves : other.filter (!·.isVertical) = graphs.filter (!·.isVertical)) :
    Id.run (nearestFrom cursor radius best other) = Id.run (nearestFrom cursor radius best graphs) := by
  rw [run_nearestFrom_eq, run_nearestFrom_eq, ← findSome?_filter_isVertical, ← foldl_filter_curves, hvertical,
    hcurves, findSome?_filter_isVertical, foldl_filter_curves]

end Loop

/-! ## Vertical lines -/

section Vertical
variable {cursor : Point} {radius : Float}

theorem Graph.hit?_eq_some_iff {graph : Graph Id} {p : Point} : graph.hit? cursor radius = some p ↔
    ∃ limits place, graph = .vertical limits place ∧ graph.IsHit cursor radius ∧
      p = ⟨place, Limits.clampY limits cursor.y⟩ := by
  cases graph with
  | curve limits value => simp [hit?]
  | vertical limits place =>
    simp only [hit?, hitVertical, IsHit, Bool.and_eq_true, Bool.not_eq_true', decide_eq_true_eq,
      Option.ite_none_right_eq_some, Option.some.injEq]
    constructor
    · rintro ⟨⟨⟨hnan, hallow⟩, hradius⟩, rfl⟩
      exact ⟨limits, place, rfl, ⟨hnan, hallow, hradius⟩, rfl⟩
    · rintro ⟨_, _, hgraph, ⟨hnan, hallow, hradius⟩, rfl⟩
      obtain ⟨rfl, rfl⟩ := Graph.vertical.inj hgraph
      exact ⟨⟨⟨hnan, hallow⟩, hradius⟩, rfl⟩

theorem Graph.hit?_eq_none_iff {graph : Graph Id} :
    graph.hit? cursor radius = none ↔ ¬ graph.IsHit cursor radius := by
  rw [Option.eq_none_iff_forall_ne_some]
  constructor
  · intro h hhit
    cases graph with
    | curve limits value => exact hhit
    | vertical limits place => exact h _ (hit?_eq_some_iff.mpr ⟨limits, place, rfl, hhit, rfl⟩)
  · intro h p hp
    obtain ⟨_, _, -, hhit, -⟩ := hit?_eq_some_iff.mp hp
    exact h hhit

end Vertical

/-! ## Curves -/

/-- What the loop keeps: the first of the nearest curves if its distance is finite. -/
inductive Best (cursor : Point) (graphs : List (Graph Id)) : Candidate → Prop where
  | none (far : ∀ g ∈ graphs, g.IsCandidate cursor → (g.away cursor).isFinite = false) :
      Best cursor graphs none
  | some {before after : List (Graph Id)} {graph : Graph Id} (split : graphs = before ++ graph :: after)
      (nearest : FirstNearest cursor before graph after)
      (finite : (graph.away cursor).isFinite = true) :
      Best cursor graphs (some (graph.away cursor, graph.pointOver cursor))

section Curves
variable {cursor : Point} {radius : Float} {graphs : List (Graph Id)} {best : Candidate}

theorem Graph.improve_eq (best : Candidate) (graph : Graph Id) : graph.improve cursor best =
    if graph.isVertical = false ∧ (graph.pointOver cursor).y.isFinite = true ∧
      graph.away cursor < (best.map Prod.fst).getD infinity then
      some (graph.away cursor, graph.pointOver cursor)
    else best := by
  cases graph with
  | vertical limits place => rw [if_neg fun h => Bool.false_ne_true h.1.symm, improve]
  | curve limits value =>
    simp only [improve, Candidate.improve, isVertical, pointOver, away, valueAt, Bool.and_eq_true,
      decide_eq_true_eq, true_and]

/-- The distance to beat is no larger than that of any candidate. -/
theorem Best.limit_le (h : Best cursor graphs best) :
    (best.map Prod.fst).getD infinity ≤ infinity ∧
      ∀ g ∈ graphs, g.IsCandidate cursor → (best.map Prod.fst).getD infinity ≤ g.away cursor := by
  have hrank : rank infinity = infinityBits := by decide
  cases h with
  | none far =>
    refine ⟨by decide, fun g hg hcandidate => ?_⟩
    have hdistance := rank_eq_infinityBits (Point.distance_nonneg hcandidate.defined) (far g hg hcandidate)
    exact le_iff.mpr ⟨by decide, hcandidate.defined, (hrank.trans hdistance.symm).le⟩
  | @some before after graph split nearest finite =>
    refine ⟨le_of_less (Point.distance_lt_infinity.mpr finite), fun g hg hcandidate => ?_⟩
    rw [split, List.mem_append, List.mem_cons] at hg
    rcases hg with hg | rfl | hg
    · exact le_of_less (nearest.lt_before g hg hcandidate)
    · exact le_iff.mpr ⟨hcandidate.defined, hcandidate.defined, le_rfl⟩
    · exact nearest.le_after g hg hcandidate

/-- One round: a graph that is nearer is the first of the nearest ones, and else the best one stays. -/
theorem Best.improve (h : Best cursor graphs best) (graph : Graph Id) :
    Best cursor (graphs ++ [graph]) (graph.improve cursor best) := by
  rw [Graph.improve_eq]
  -- only a strictly smaller distance counts, so among equal ones the first stays
  split
  · next hnearer =>
    obtain ⟨hcurve, hfinite, hlt⟩ := hnearer
    obtain ⟨hlimit, hcandidates⟩ := h.limit_le
    refine .some rfl ⟨⟨hcurve, hfinite, (lt_iff.mp hlt).1⟩, ?_, ?_⟩
      (Point.distance_lt_infinity.mp (less_of_less_le hlt hlimit))
    · exact fun g hg hcandidate => less_of_less_le hlt (hcandidates g hg hcandidate)
    · exact fun g hg => absurd hg List.not_mem_nil
  · next hnot =>
    have hnotLt (hcandidate : graph.IsCandidate cursor) :
        ¬ graph.away cursor < (best.map Prod.fst).getD infinity :=
      fun hlt => hnot ⟨hcandidate.isCurve, hcandidate.finite, hlt⟩
    cases h with
    | none far =>
      refine .none fun g hg hcandidate => ?_
      rcases List.mem_append.mp hg with hg | hg
      · exact far g hg hcandidate
      · obtain rfl := List.mem_singleton.mp hg
        rw [Bool.eq_false_iff]
        exact fun hfinite => hnotLt hcandidate (Point.distance_lt_infinity.mpr hfinite)
    | @some before after best split nearest finite =>
      have hsplit : graphs ++ [graph] = before ++ best :: (after ++ [graph]) := by simp [split]
      refine .some hsplit ⟨nearest.candidate, nearest.lt_before, ?_⟩ finite
      intro g hg hcandidate
      rcases List.mem_append.mp hg with hg | hg
      · exact nearest.le_after g hg hcandidate
      · obtain rfl := List.mem_singleton.mp hg
        exact le_of_not_less hcandidate.defined nearest.candidate.defined (hnotLt hcandidate)

theorem best_foldl (cursor : Point) (graphs : List (Graph Id)) :
    Best cursor graphs (graphs.foldl (Graph.improve cursor) none) := by
  induction graphs using List.reverseRecOn with
  | nil => exact .none fun _ hg => absurd hg List.not_mem_nil
  | append_singleton graphs graph ih =>
    rw [List.foldl_append]
    exact ih.improve graph

end Curves

theorem picks_nearestFrom (cursor : Point) (radius : Float) (graphs : List (Graph Id)) :
    Picks cursor radius graphs (Id.run (nearestFrom cursor radius none graphs)) := by
  rw [run_nearestFrom_eq]
  cases hfound : graphs.findSome? (Graph.hit? cursor radius) with
  | some p =>
    obtain ⟨before, graph, after, hsplit, hp, hbefore⟩ := List.findSome?_eq_some_iff.mp hfound
    obtain ⟨limits, place, rfl, hhit, rfl⟩ := Graph.hit?_eq_some_iff.mp hp
    exact .vertical hsplit hhit fun g hg => Graph.hit?_eq_none_iff.mp (hbefore g hg)
  | none =>
    have hnoHit : ∀ g ∈ graphs, ¬ g.IsHit cursor radius := fun g hg =>
      Graph.hit?_eq_none_iff.mp (List.findSome?_eq_none_iff.mp hfound g hg)
    have hbest := best_foldl cursor graphs
    generalize graphs.foldl (Graph.improve cursor) none = best at hbest ⊢
    show Picks cursor radius graphs (best.within? radius)
    have hlimit := hbest.limit_le.2
    cases hbest with
    | none far =>
      exact .nothing hnoHit fun g hg hcandidate hfinite =>
        absurd hfinite (Bool.eq_false_iff.mp (far g hg hcandidate))
    | @some before after graph split nearest finite =>
      show Picks cursor radius graphs
        (if graph.away cursor ≤ radius then some (graph.pointOver cursor) else none)
      split
      · next hwithin => exact .curve hnoHit split nearest finite hwithin
      · next hfar =>
        exact .nothing hnoHit fun g hg hcandidate _ hle =>
          hfar (le_trans_of (hlimit g hg hcandidate) hle)

/-! ## Lines -/

/-- A graph as the search sees it: of a curve it sees the height at one place. -/
def Graph.seen {m : Type → Type} [Monad m] (x : Float) : Graph m → m (Graph Id)
  | vertical limits place => return vertical limits place
  | curve limits value => do
    let y ← limitedValue limits value x
    return curve none fun _ => y

theorem run_nearestFrom_level (cursor : Point) (radius y : Float) (best : Candidate)
    (graphs : List (Graph Id)) :
    Id.run (nearestFrom cursor radius best (.curve none (fun _ => (y : Id Float)) :: graphs)) =
      Id.run (nearestFrom cursor radius (best.improve y cursor) graphs) := by
  have hheight : Graph.limitedHeight none y = y := by simp [Graph.limitedHeight, Limits.allow]
  show Id.run (nearestFrom cursor radius (best.improve (Graph.limitedHeight none y) cursor) graphs) = _
  rw [hheight]

namespace Engine
variable (cursor : Point) (radius x : Float)

/-- The graphs of lines with the heights that an engine finds, one after the other. -/
def seen (engine : Engine) (x : Float) (lines : List Line) : List (Graph Id) :=
  (engine.run (lines.mapM fun line => line.graph.seen x)).1

theorem seen_cons (engine : Engine) (line : Line) (lines : List Line) :
    engine.seen x (line :: lines) = (engine.run (line.graph.seen x)).1 ::
      seen (engine.run (line.graph.seen x)).2 x lines := by
  simp only [seen, List.mapM_cons, run_bind, run_pure]

/-- The search goes on as it would with the heights at hand. -/
theorem run_nearestFrom (engine : Engine) (best : Candidate) (lines : List Line) :
    (engine.run (nearestFrom cursor radius best (lines.map Line.graph))).1 =
      Id.run (nearestFrom cursor radius best (engine.seen cursor.x lines)) := by
  induction lines generalizing engine best with
  | nil => rfl
  | cons line lines ih =>
    rw [seen_cons, List.map_cons]
    cases line.graph with
    | vertical limits place =>
      rw [nearestFrom, Graph.seen, run_pure, nearestFrom]
      cases hitVertical limits place cursor radius with
      | none => exact ih engine best
      | some p => rfl
    | curve limits value =>
      rw [nearestFrom, Graph.seen, run_bind, run_bind, run_pure, ih]
      exact (run_nearestFrom_level cursor radius _ best _).symm

theorem isVertical_seen (engine : Engine) (line : Line) :
    (engine.run (line.graph.seen x)).1.isVertical = line.isVertical := by
  cases h : line.shape with
  | vertical place =>
    rw [Line.graph_of_vertical h]
    simp [Graph.seen, Graph.isVertical, Line.isVertical, Line.place?, h]
  | curve base =>
    rw [Line.graph_of_curve h]
    simp [Graph.seen, Graph.isVertical, Line.isVertical, Line.place?, h]

/-- A vertical line is seen alike on all engines, and leaves them as they are. -/
theorem run_seen_vertical {line : Line} (h : line.isVertical = true) (engine other : Engine) :
    engine.run (line.graph.seen x) = ((other.run (line.graph.seen x)).1, engine) := by
  obtain ⟨place, hgraph⟩ := Line.exists_vertical h
  rw [hgraph]
  rfl

theorem filter_vertical_seen (engine other : Engine) (lines : List Line) :
    (engine.seen x lines).filter Graph.isVertical =
      other.seen x (lines.filter Line.isVertical) := by
  induction lines generalizing engine with
  | nil => rfl
  | cons line lines ih =>
    rw [seen_cons]
    by_cases h : line.isVertical = true
    · rw [List.filter_cons_of_pos ((isVertical_seen x engine line).trans h), List.filter_cons_of_pos h,
        seen_cons, ih, run_seen_vertical x h engine other, run_seen_vertical x h other other]
    · rw [List.filter_cons_of_neg (by rwa [isVertical_seen]), List.filter_cons_of_neg h, ih]

theorem filter_curve_seen (engine : Engine) (lines : List Line) :
    (engine.seen x lines).filter (!·.isVertical) =
      engine.seen x (lines.filter (!·.isVertical)) := by
  induction lines generalizing engine with
  | nil => rfl
  | cons line lines ih =>
    rw [seen_cons]
    by_cases h : line.isVertical = true
    · rw [List.filter_cons_of_neg (by simp [isVertical_seen, h]), List.filter_cons_of_neg (by simp [h]),
        ih, run_seen_vertical x h engine engine]
    · rw [List.filter_cons_of_pos (by simpa [isVertical_seen] using h),
        List.filter_cons_of_pos (by simpa using h), seen_cons, ih]

/-- The point that an engine finds under the cursor, on the graphs of lines with the heights that it
finds for them, and it stays the same when the vertical lines are moved among the others. -/
theorem nearest_picks (engine : Engine) (settings : Settings) (view : Viewport) (cursor : Point)
    (lines : List Line) :
    (∀ answer, (engine.run (nearest settings view cursor (lines.map Line.graph))).1 = answer ↔
      Picks cursor (settings.hitRadius * view.step) (engine.seen cursor.x lines) answer) ∧
    ∀ other : List Line,
      other.filter Line.isVertical = lines.filter Line.isVertical →
      other.filter (!·.isVertical) = lines.filter (!·.isVertical) →
      (engine.run (nearest settings view cursor (other.map Line.graph))).1 =
        (engine.run (nearest settings view cursor (lines.map Line.graph))).1 := by
  simp only [nearest, run_nearestFrom]
  have hpicks := picks_nearestFrom cursor (settings.hitRadius * view.step) (engine.seen cursor.x lines)
  refine ⟨fun answer => ⟨?_, hpicks.unique⟩, fun other hvertical hcurves => ?_⟩
  · rintro rfl
    exact hpicks
  · refine run_nearestFrom_congr cursor _ none ?_ ?_
    · rw [filter_vertical_seen cursor.x engine engine, filter_vertical_seen cursor.x engine engine, hvertical]
    · rw [filter_curve_seen, filter_curve_seen, hcurves]

/-- A vertical line is hit in the height of its bound, before a curve that runs through its place and
behind it. -/
theorem moved_line_is_hit :
    let before := [Line.read "x=1 \x7by<2\x7d", Line.read "x"]
    let behind := [Line.read "x", Line.read "x=1 \x7by<2\x7d"]
    before.filter Line.isVertical = behind.filter Line.isVertical ∧
    before.filter (!·.isVertical) = behind.filter (!·.isVertical) ∧
    found (nearest Settings.default squareView ⟨1.0, 5.0⟩ (before.map Line.graph)) = some ⟨1.0, 2.0⟩ ∧
    found (nearest Settings.default squareView ⟨1.0, 5.0⟩ (behind.map Line.graph)) = some ⟨1.0, 2.0⟩ := by
  intro before behind
  have hvertical : before.filter Line.isVertical = behind.filter Line.isVertical := by rfl
  have hcurves : before.filter (!·.isVertical) = behind.filter (!·.isVertical) := by rfl
  have hbefore : found (nearest Settings.default squareView ⟨1.0, 5.0⟩ (before.map Line.graph)) =
      some ⟨1.0, 2.0⟩ := by rfl
  obtain ⟨-, hmoved⟩ := nearest_picks plainEngine Settings.default squareView ⟨1.0, 5.0⟩ behind
  exact ⟨hvertical, hcurves, hbefore, (hmoved before hvertical hcurves).symm.trans hbefore⟩

end Engine
end GraphCalc
