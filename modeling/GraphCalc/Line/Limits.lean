import GraphCalc.Number.Text

/-! # Limits of a line

A line may be drawn only where its coordinates stay in given ranges. A range has a lower and an
upper bound, each optional and each either inclusive or exclusive. Main notions:

* `Bound`, `Range`, `Limits`: a bound, the two bounds of an axis, the ranges of both axes;
* `Range.atLeast`, `Range.atMost`: applying a bound; an inclusive one takes the place of an equal
  exclusive one, and else only a tighter bound replaces another;
* `Range.allows`, `Range.clamp`: whether a value is in the range, and the value pulled onto the
  nearest bound;
* `Limits.describe`: the limits in the notation in which they are read.
-/

namespace GraphCalc
set_option autoImplicit false

/-! ## Bounds and ranges -/

/-- One end of a range. -/
structure Bound where
  value : Float
  inclusive : Bool
  deriving DecidableEq, Repr

/-- The values between two bounds, each of which may be missing. -/
structure Range where
  lower : Option Bound
  upper : Option Bound
  deriving DecidableEq, Repr

namespace Range

def full : Range := ⟨none, none⟩

def isFull (r : Range) : Bool := r.lower.isNone && r.upper.isNone

/-- Applies a lower bound. It takes the place of one that is smaller, or equal if it is itself
inclusive. -/
def atLeast (b : Bound) (r : Range) : Range :=
  match r.lower with
  | none => { r with lower := some b }
  | some current =>
    if current.value < b.value || (b.value == current.value && b.inclusive) then
      { r with lower := some b }
    else r

/-- Applies an upper bound. It takes the place of one that is larger, or equal if it is itself
inclusive. -/
def atMost (b : Bound) (r : Range) : Range :=
  match r.upper with
  | none => { r with upper := some b }
  | some current =>
    if b.value < current.value || (b.value == current.value && b.inclusive) then
      { r with upper := some b }
    else r

/-- Whether a value is out of the range below the lower bound. -/
def isBelow (r : Range) (v : Float) : Bool :=
  match r.lower with
  | none => false
  | some b => v < b.value || (v == b.value && !b.inclusive)

/-- Whether a value is out of the range above the upper bound. -/
def isAbove (r : Range) (v : Float) : Bool :=
  match r.upper with
  | none => false
  | some b => b.value < v || (v == b.value && !b.inclusive)

/-- Whether a value is neither below nor above the range. -/
def allows (r : Range) (v : Float) : Bool := !r.isBelow v && !r.isAbove v

/-- A value below the range is raised to the lower bound; then one above it is lowered to the upper
bound. -/
def clamp (r : Range) (v : Float) : Float :=
  let raised := if r.isBelow v then (r.lower.map Bound.value).getD v else v
  if r.isAbove raised then (r.upper.map Bound.value).getD raised else raised

end Range

/-! ## Limits of both axes -/

/-- The axes of the plane. -/
inductive Axis where
  | x
  | y
  deriving DecidableEq, Repr

def Axis.letter : Axis → Char
  | x => 'x'
  | y => 'y'

/-- The ranges of the two coordinates. -/
structure Limits where
  x : Range
  y : Range
  deriving DecidableEq, Repr

namespace Limits

def none : Limits := ⟨.full, .full⟩

def isEmpty (l : Limits) : Bool := l.x.isFull && l.y.isFull

def range (l : Limits) : Axis → Range
  | .x => l.x
  | .y => l.y

def modify (axis : Axis) (f : Range → Range) (l : Limits) : Limits :=
  match axis with
  | .x => { l with x := f l.x }
  | .y => { l with y := f l.y }

/-! ## Description -/

/-- The value of a bound, in at most six digits. -/
def valueText (b : Bound) : String := writeFloat Style.general b.value

/-- The comparison from a smaller to a larger side. -/
def lessText (b : Bound) : String := if b.inclusive then "<=" else "<"

/-- The comparison from a larger to a smaller side. -/
def greaterText (b : Bound) : String := if b.inclusive then ">=" else ">"

/-- The range of an axis; nothing if it has no bound. -/
def describeRange (axis : Axis) (r : Range) : List String :=
  let name := axis.letter.toString
  match r.lower, r.upper with
  | some lo, some hi =>
    [valueText lo ++ " " ++ lessText lo ++ " " ++ name ++ " " ++ lessText hi ++ " " ++ valueText hi]
  | some lo, .none => [name ++ " " ++ greaterText lo ++ " " ++ valueText lo]
  | .none, some hi => [name ++ " " ++ lessText hi ++ " " ++ valueText hi]
  | .none, .none => []

/-- The limits in words, such as `-1 < x <= 2 && y >= 0`. -/
def describe (l : Limits) : String :=
  " && ".intercalate (describeRange .x l.x ++ describeRange .y l.y)

end Limits
end GraphCalc
