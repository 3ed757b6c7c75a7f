import GraphCalc.Eval.Inquiry
import GraphCalc.Line.Basic
import GraphCalc.Plot.Viewport

/-! # Graphs

What a line draws once its expression can be evaluated: a curve, which has a value at each place, or
a vertical line. Outside the limits of a line nothing is drawn, nor is the expression evaluated there.
The heights of a curve are computations of any kind; those of a line ask for values. Main notions:

* `Graph`, `Line.graph`: graphs, and the graph of a line;
* `Graph.valueAt`: the height of a curve, undefined outside the limits;
* `Graph.span?`: the visible stretch of a vertical line, an exclusive bound being moved to the next
  double inside;
* `Run`, `runs`: the longest stretches of consecutive members of a list that all have a property;
* `Graph.segments`: the polylines that are drawn, broken where the curve is not finite.
-/

namespace GraphCalc
set_option autoImplicit false

variable {m : Type → Type} [Monad m]

/-- What a line draws. -/
inductive Graph (m : Type → Type) where
  | curve (limits : Option Limits) (value : Float → m Float)
  | vertical (limits : Option Limits) (place : Float)

def Line.graph (line : Line) : Graph Inquiry :=
  match line.shape with
  | .curve base => .curve line.limits (Inquiry.valueAt base)
  | .vertical place => .vertical line.limits place

/-! ## Limits -/

namespace Limits

/-- Whether optional limits allow a value on an axis. -/
def allow (limits : Option Limits) (axis : Axis) (v : Float) : Bool :=
  match limits with
  | .none => true
  | some l => (l.range axis).allows v

/-- A height pulled into optional limits. -/
def clampY (limits : Option Limits) (y : Float) : Float :=
  match limits with
  | .none => y
  | some l => l.y.clamp y

end Limits

namespace Graph

/-! ## Values -/

/-- A height as limits leave it. Infinite and undefined values are left as they are. -/
def limitedHeight (limits : Option Limits) (y : Float) : Float :=
  if !y.isFinite || Limits.allow limits .y y then y else Binary64.nan

/-- The height of a curve under limits. -/
@[specialize] def limitedValue (limits : Option Limits) (value : Float → m Float) (x : Float) :
    m Float :=
  if Limits.allow limits .x x then return limitedHeight limits (← value x)
  else return Binary64.nan

/-- The height of a graph at a place; undefined for a vertical line. -/
@[specialize] def valueAt : Graph m → Float → m Float
  | curve limits value, x => limitedValue limits value x
  | vertical _ _, _ => return Binary64.nan

/-! ## Vertical lines -/

/-- Whether a vertical line at a place shows: the place is defined, allowed and in view. -/
def shows (limits : Option Limits) (place : Float) (view : Viewport) : Bool :=
  !place.isNaN && Limits.allow limits .x place && view.containsX place

/-- The lower end of what a range leaves of a stretch that starts at `low`. -/
def lowEnd (range : Range) (low : Float) : Float :=
  match range.lower with
  | none => low
  | some b =>
    let low := if low < b.value then b.value else low
    if b.inclusive then low else Binary64.next low

/-- The upper end of what a range leaves of a stretch that ends at `high`. -/
def highEnd (range : Range) (high : Float) : Float :=
  match range.upper with
  | none => high
  | some b =>
    let high := if b.value < high then b.value else high
    if b.inclusive then high else Binary64.previous high

/-- The heights between which a vertical line is visible. -/
def span? (graph : Graph m) (view : Viewport) : Option (Float × Float) :=
  match graph with
  | curve _ _ => none
  | vertical limits place =>
    if shows limits place view then
      let range := (limits.map Limits.y).getD Range.full
      let low := lowEnd range view.bottom
      let high := highEnd range view.top
      if high < low then none else some (low, high)
    else none

end Graph

/-! ## Runs -/

/-- Consecutive members with a property. -/
structure Run (α : Type) where
  members : List α
  /-- Whether the list ends with the run. -/
  reachesEnd : Bool
  deriving DecidableEq, Repr

def runs {α : Type} (property : α → Bool) : List α → List (Run α)
  | [] => []
  | a :: rest =>
    if property a then
      let after := rest.dropWhile property
      ⟨a :: rest.takeWhile property, after.isEmpty⟩ :: runs property after
    else runs property rest
termination_by list => list.length
decreasing_by
  · exact Nat.lt_succ_of_le (List.dropWhile_sublist property).length_le
  · exact Nat.lt_succ_self _

namespace Graph

/-! ## Polylines -/

/-- The points of a curve over places, from the first place on. -/
@[specialize] def samples (value : Float → m Float) (places : List Float) : m (List Point) :=
  places.mapM fun x => return ⟨x, ← value x⟩

/-- The polylines through points, broken where a height is not finite. -/
def polylines (points : List Point) : List (List Point) :=
  (runs (fun p : Point => p.y.isFinite) points).map Run.members

@[specialize] def segments (graph : Graph m) (view : Viewport) : m (List (List Point)) :=
  match graph with
  | vertical _ place =>
    match graph.span? view with
    | some (low, high) => return [[⟨place, low⟩, ⟨place, high⟩]]
    | none => return []
  | curve limits value => return polylines (← samples (limitedValue limits value) view.xs)

end Graph
end GraphCalc
