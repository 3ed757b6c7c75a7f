import GraphCalc.Number.Decimal

/-! # Settings

The numeric limits of sampling, root search, integration and calls. Counts are integers and may be
zero or negative when they are set by hand; every algorithm says what it then does. Radii are
counted in samples of a viewport. Each setting may be given by a variable of the environment: a value that
is blank, no number, or not positive leaves the default, and the number of parts of an integral is made
even. Main notions:

* `Settings`, `Settings.default`: the limits, and those that hold when nothing else is said;
* `Settings.ofEnvironment`: the limits that an environment gives.
-/

namespace GraphCalc
open GraphCalc.Text
set_option autoImplicit false

/-- Numeric limits, with the values they have when nothing else is said. -/
structure Settings where
  /-- Samples across a viewport when no number is given. -/
  width : Int := 800
  /-- Rounds of bisection for each root. -/
  bisectIterations : Int := 18
  /-- Parts of an interval of integration. -/
  simpsonIntervals : Int := 1000
  /-- Key points at most this far apart are merged. -/
  mergeRadius : Float := 6.0
  /-- A curve at most this far from the cursor is hit. -/
  hitRadius : Float := 8.0
  /-- Nested calls of user functions. -/
  maxCallDepth : Int := 64
  deriving DecidableEq, Repr

def Settings.default : Settings where

/-! ## Settings from the environment -/

abbrev Environment := List (String × String)

namespace Settings

/-! ## Variables -/

def variableStart : String := "INTEGRAX_"

def widthVariable : String := variableStart ++ "WIDTH"

def bisectVariable : String := variableStart ++ "BISECT_ITERATIONS"

def simpsonVariable : String := variableStart ++ "SIMPSON_INTERVALS"

def mergeVariable : String := variableStart ++ "MERGE_RADIUS"

def hitVariable : String := variableStart ++ "HIT_RADIUS"

def depthVariable : String := variableStart ++ "MAX_CALL_DEPTH"

def variableNames : List String :=
  [widthVariable, bisectVariable, simpsonVariable, mergeVariable, hitVariable, depthVariable]

/-! ## Values -/

/-- The text of a variable without blanks at its ends, if it is not blank. -/
def text? (environment : Environment) (name : String) : Option (List Char) :=
  (environment.lookup name).bind fun raw =>
    let text := trim raw.toList
    if text.isEmpty then none else some text

def count (environment : Environment) (name : String) (usual : Int) : Int :=
  match (text? environment name).bind Numeral.readInt? with
  | some n => if 0 < n then n else usual
  | none => usual

def size (environment : Environment) (name : String) (usual : Float) : Float :=
  match (text? environment name).bind Numeral.readFloat? with
  | some v => if 0.0 < v then v else usual
  | none => usual

def ofEnvironment (environment : Environment) : Settings :=
  let usual := Settings.default
  let parts := count environment simpsonVariable usual.simpsonIntervals
  { width := count environment widthVariable usual.width
    bisectIterations := count environment bisectVariable usual.bisectIterations
    simpsonIntervals := if parts % 2 = 0 then parts else parts + 1
    mergeRadius := size environment mergeVariable usual.mergeRadius
    hitRadius := size environment hitVariable usual.hitRadius
    maxCallDepth := count environment depthVariable usual.maxCallDepth }

end Settings
end GraphCalc
