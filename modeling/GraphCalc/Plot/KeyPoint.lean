import GraphCalc.Plot.Graph
import GraphCalc.Plot.Root

/-! # Key points

Where graphs meet the axes and each other. Main notions:

* `Graph.intercepts`: the point over zero, then the points on the x axis;
* `Graph.crossings`: the points that two graphs share;
* `merge`: a list of points less those too close to one kept before;
* `keyPoints`: the intercepts of all graphs and the crossings of all pairs, merged;
* `nearest`: the point of a graph under the cursor.
-/

namespace GraphCalc
set_option autoImplicit false

variable {m : Type → Type} [Monad m]

namespace Graph

/-! ## Intercepts -/

/-- A point, if its height is finite. -/
def finitePoint (x y : Float) : List Point := if y.isFinite then [⟨x, y⟩] else []

/-- The point of a curve over zero, if zero is in view and the curve is finite there. -/
@[specialize] def yIntercept (value : Float → m Float) (view : Viewport) : m (List Point) :=
  if view.containsX 0.0 then return finitePoint 0.0 (← value 0.0) else return []

/-- The points of a curve on the x axis. -/
@[specialize] def xIntercepts (value : Float → m Float) (rounds : Int) (view : Viewport) :
    m (List Point) := do
  let roots ← Root.signChanges value rounds view.xs
  return roots.map fun root => ⟨root, 0.0⟩

/-- Where a graph meets the axes. A vertical line meets the x axis in the height that its limits
leave nearest to zero. -/
@[specialize] def intercepts (rounds : Int) (view : Viewport) : Graph m → m (List Point)
  | vertical limits place =>
    return if shows limits place view then [⟨place, Limits.clampY limits 0.0⟩] else []
  | curve limits value => do
    let value := limitedValue limits value
    let onY ← yIntercept value view
    return onY ++ (← xIntercepts value rounds view)

/-! ## Crossings -/

@[specialize] def verticalCrossing (limits : Option Limits) (place : Float)
    (value : Float → m Float) (view : Viewport) : m (List Point) :=
  if shows limits place view then do
    let y ← value place
    return if y.isFinite && Limits.allow limits .y y then [⟨place, y⟩] else []
  else return []

/-- The difference of two curves. -/
@[specialize] def difference (f g : Float → m Float) (x : Float) : m Float :=
  return (← f x) - (← g x)

/-- Where two curves meet: the roots of their difference, on the first curve. -/
@[specialize] def curveCrossings (f g : Float → m Float) (rounds : Int) (view : Viewport) :
    m (List Point) := do
  let roots ← Root.signChanges (difference f g) rounds view.xs
  return (← samples f roots).filter fun p => p.y.isFinite

/-- The points that two graphs share in view; two vertical lines share none. -/
@[specialize] def crossings (rounds : Int) (view : Viewport) (a b : Graph m) : m (List Point) :=
  match a, b with
  | vertical _ _, vertical _ _ => return []
  | vertical limits place, curve _ _ => verticalCrossing limits place b.valueAt view
  | curve _ _, vertical limits place => verticalCrossing limits place a.valueAt view
  | curve _ _, curve _ _ => curveCrossings a.valueAt b.valueAt rounds view

end Graph

/-! ## Merging -/

/-- The points kept, in order: each point that is farther than `radius` from all kept before it.
`kept` holds those found so far, in order. -/
def mergeInto (radius : Float) : List Point → List Point → List Point
  | kept, [] => kept
  | kept, p :: rest =>
    if kept.any fun q => p.distance q ≤ radius then mergeInto radius kept rest
    else mergeInto radius (kept ++ [p]) rest

/-- A list of points less those within `radius` of one kept before. -/
def merge (radius : Float) (points : List Point) : List Point := mergeInto radius [] points

/-- The pairs of members of a list, the earlier member first. -/
def pairs {α : Type} : List α → List (α × α)
  | [] => []
  | a :: rest => rest.map (fun b => (a, b)) ++ pairs rest

/-- The intercepts of all graphs, then the crossings of all pairs. -/
@[specialize] def candidates (rounds : Int) (view : Viewport) (graphs : List (Graph m)) :
    m (List Point) := do
  let onAxes ← graphs.mapM (Graph.intercepts rounds view)
  let shared ← (pairs graphs).mapM fun (a, b) => a.crossings rounds view b
  return onAxes.flatten ++ shared.flatten

@[specialize] def keyPoints (settings : Settings) (view : Viewport) (graphs : List (Graph m)) :
    m (List Point) := do
  let points ← candidates settings.bisectIterations view graphs
  return merge (settings.mergeRadius * view.step) points

/-! ## The point under the cursor -/

/-- The point of a vertical line that the cursor hits: the cursor's height within the limits. -/
def hitVertical (limits : Option Limits) (place : Float) (cursor : Point) (radius : Float) :
    Option Point :=
  if !place.isNaN && Limits.allow limits .x place && (place - cursor.x).abs ≤ radius then
    some ⟨place, Limits.clampY limits cursor.y⟩
  else none

/-- The best point of curves seen so far, with its distance. -/
abbrev Candidate := Option (Float × Point)

/-- The better of a candidate and the point of a curve over the cursor, given its height. -/
def Candidate.improve (y : Float) (cursor : Point) (best : Candidate) : Candidate :=
  let p : Point := ⟨cursor.x, y⟩
  let distance := p.distance cursor
  let limit := (best.map Prod.fst).getD Binary64.infinity
  if p.y.isFinite && distance < limit then some (distance, p) else best

/-- The first vertical line that the cursor hits; without one, the nearest point of a curve over the
cursor, if it is near enough. -/
@[specialize] def nearestFrom (cursor : Point) (radius : Float) :
    Candidate → List (Graph m) → m (Option Point)
  | best, [] => return best.bind fun (distance, p) => if distance ≤ radius then some p else none
  | best, .vertical limits place :: rest =>
    match hitVertical limits place cursor radius with
    | some p => return some p
    | none => nearestFrom cursor radius best rest
  | best, .curve limits value :: rest => do
    let y ← Graph.limitedValue limits value cursor.x
    nearestFrom cursor radius (best.improve y cursor) rest

@[specialize] def nearest (settings : Settings) (view : Viewport) (cursor : Point)
    (graphs : List (Graph m)) : m (Option Point) :=
  nearestFrom cursor (settings.hitRadius * view.step) none graphs

end GraphCalc
