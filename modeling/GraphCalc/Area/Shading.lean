import GraphCalc.Area.IntegralCall
import GraphCalc.Plot.Graph

/-! # Values and shading of integrals

Main notions:

* `IntegralCall.bounds`: the bounds of an integral as numbers, if both are finite;
* `IntegralCall.value`: the value of an integral, undefined if it cannot be computed;
* `clip`: the visible part of an interval of integration;
* `IntegralCall.shading`: the polygons between the integrand and the x axis over the visible part, one
  for each stretch of finite samples. A polygon ends on the axis below its last sample, and below the end
  of the interval if its samples go on to there.
-/

namespace GraphCalc
set_option autoImplicit false

/-! ## Values -/

namespace IntegralCall

/-- The bounds of an integral, if both are finite. -/
def bounds (call : IntegralCall) : Inquiry (Option (Float × Float)) := do
  let a ← Inquiry.valueAt call.lower 0.0
  let b ← Inquiry.valueAt call.upper 0.0
  return if a.isFinite && b.isFinite then some (a, b) else none

/-- The value of an integral. -/
def value (call : IntegralCall) : Inquiry Float := Inquiry.valueAt call.expression 0.0

end IntegralCall

/-! ## Shading -/

/-- An interval of integration in view, with the number of its samples and their distance. -/
structure Clip where
  start : Float
  finish : Float
  samples : Nat
  step : Float
  deriving Repr

/-- The visible part of the interval between two bounds in either order. There is none if the bounds
are equal, or if no two samples in view are apart. -/
def clip (a b : Float) (view : Viewport) : Option Clip :=
  if a == b then none
  else
    let low := if b < a then b else a
    let high := if a < b then b else a
    if high < view.left || view.right < low then none
    else
      let start := if low < view.left then view.left else low
      let finish := if view.right < high then view.right else high
      let samples := max 2 view.width
      let step := (finish - start) / Float.ofNat samples
      if step ≤ 0.0 then none else some ⟨start, finish, samples, step⟩

/-- The places of the samples. -/
def Clip.places (clip : Clip) : List Float :=
  (List.range (clip.samples + 1)).map fun i => clip.start + Float.ofNat i * clip.step

/-- The polygon over a run of samples, closed on the axis. -/
def Clip.polygon (clip : Clip) (run : Run Point) : List Point :=
  match run.members with
  | [] => []
  | first :: rest =>
    let last := if run.reachesEnd then clip.finish else (rest.getLastD first).x
    ⟨first.x, 0.0⟩ :: first :: rest ++ [⟨last, 0.0⟩]

/-- The polygons over points, one for each run of finite heights. -/
def Clip.polygons (clip : Clip) (points : List Point) : List (List Point) :=
  (runs (fun p : Point => p.y.isFinite) points).map clip.polygon

/-- The polygons between the integrand and the x axis. -/
def IntegralCall.shading (call : IntegralCall) (view : Viewport) : Inquiry (List (List Point)) := do
  match ← call.bounds with
  | none => return []
  | some (a, b) =>
    match clip a b view with
    | none => return []
    | some clip => return clip.polygons (← Graph.samples (Inquiry.valueAt call.integrand) clip.places)

end GraphCalc
