import GraphCalc.Number.Text

/-! # Points and viewports

A viewport is a rectangle of the plane together with the number of steps in which its width is
sampled. Distances on the screen are counted in steps. Main notions:

* `Point` and `Point.distance`;
* `Viewport`: its width is at least one step, and its right edge is right of its left edge;
* `Viewport.make`, `Viewport.ofCamera`: a viewport from its edges, or from a camera;
* `Viewport.xs`: the sample grid from the left edge to the right edge.
-/

namespace GraphCalc
set_option autoImplicit false

/-! ## Points -/

/-- A point of the plane. -/
structure Point where
  x : Float
  y : Float
  deriving DecidableEq, Repr, Inhabited

/-- The Euclidean distance; infinite if a coordinate differs by infinity. -/
def Point.distance (p q : Point) : Float := Binary64.hypotenuse (p.x - q.x) (p.y - q.y)

/-! ## Viewports -/

/-- A visible rectangle, sampled in `width` steps from left to right. -/
structure Viewport where
  left : Float
  right : Float
  bottom : Float
  top : Float
  width : Nat
  width_pos : 0 < width
  left_lt_right : left < right

/-- Why a rectangle is no viewport. -/
inductive ViewportError where
  | noSamples
  | edgesReversed
  | zeroScale
  deriving DecidableEq, Repr

def ViewportError.message : ViewportError → String
  | noSamples => "Viewport width must be at least 1 sample"
  | edgesReversed => "Viewport right edge must exceed its left edge"
  | zeroScale => "float division by zero"

namespace Viewport

/-- The viewport with given edges and a number of steps. -/
def make (left right bottom top : Float) (width : Int) : Except ViewportError Viewport :=
  if hw : 0 < width.toNat then
    if hl : left < right then .ok ⟨left, right, bottom, top, width.toNat, hw, hl⟩
    else .error .edgesReversed
  else .error .noSamples

/-- An edge of a camera's view: half an extent in steps, scaled to the plane and moved. -/
def cameraEdge (extent : Int) (scale offset : Float) : Float :=
  Float.ofInt extent / 2.0 / scale - offset

/-- The viewport of a camera that is moved by offsets and shows `scale` steps for each unit. -/
def ofCamera (offsetX offsetY scale : Float) (width height : Int) : Except ViewportError Viewport :=
  if scale == 0.0 then .error .zeroScale
  else make (cameraEdge (-width) scale offsetX) (cameraEdge width scale offsetX)
    (cameraEdge (-height) scale offsetY) (cameraEdge height scale offsetY) width

def step (view : Viewport) : Float := (view.right - view.left) / Float.ofNat view.width

/-- Whether a place is visible from left to right. -/
def containsX (view : Viewport) (x : Float) : Bool := view.left ≤ x && x ≤ view.right

def xs (view : Viewport) : List Float :=
  let step := view.step
  (List.range (view.width + 1)).map fun i => view.left + Float.ofNat i * step

end Viewport
end GraphCalc
