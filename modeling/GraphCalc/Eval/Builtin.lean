import GraphCalc.Number.Elementary

/-! # Built-in functions and constants

Arithmetic follows the rules of doubles: outside its domain a function is undefined, beyond the
largest double it is infinite, and a logarithm of zero is negative infinity. Main notions:

* `Builtin`: a function with one or two arguments;
* `builtins`: all of them by name, in the order of the reference card;
* `constants`: the named numbers;
* `integralName`, `integrationVariable`: the reserved call for integrals and the variable it binds.
-/

namespace GraphCalc
open GraphCalc.Binary64
set_option autoImplicit false

/-- A function of a fixed number of doubles. -/
inductive Builtin where
  | one (f : Float → Float)
  | two (f : Float → Float → Float)

namespace Builtin

/-! ## Numeric rules -/

/-- A logarithm: of zero negative infinity, of a negative number undefined. -/
def logarithm (log : Float → Float) (x : Float) : Float :=
  if x == 0.0 then -infinity else if x < 0.0 || x.isNaN then nan else log x

/-- The reciprocal of a function; infinite where the function is zero. -/
def reciprocal (f : Float → Float) (x : Float) : Float :=
  let d := f x
  if d == 0.0 then infinity else 1.0 / d

/-- The cube root, with the sign of its argument. -/
def cubeRoot (x : Float) : Float := withSign (isNegative x) (x.abs.pow (1.0 / 3.0))

/-- One under the sign of `x`, and zero for both zeros. -/
def signum (x : Float) : Float :=
  if x.isNaN then nan else if 0.0 < x then 1.0 else if x < 0.0 then -1.0 else 0.0

/-- The smaller of two numbers, the first of two equal ones; undefined if either is. -/
def smaller (a b : Float) : Float :=
  if a.isNaN || b.isNaN then nan else if b < a then b else a

/-- The larger of two numbers, the first of two equal ones; undefined if either is. -/
def larger (a b : Float) : Float :=
  if a.isNaN || b.isNaN then nan else if a < b then b else a

/-- The ratio of a circle's circumference to its diameter. -/
def pi : Float := 3.141592653589793

def toRadians (x : Float) : Float := x * (pi / 180.0)

def toDegrees (x : Float) : Float := x * (180.0 / pi)

/-! ## Application -/

def arity : Builtin → Nat
  | one _ => 1
  | two _ => 2

/-- The value at a list of arguments; undefined if there are too many or too few. -/
def apply : Builtin → List Float → Float
  | one f, [x] => f x
  | two f, [x, y] => f x y
  | _, _ => nan

end Builtin

/-! ## The card -/

def builtins : List (String × Builtin) := [
  ("sin", .one Float.sin), ("cos", .one Float.cos), ("tan", .one Float.tan),
  ("cot", .one (Builtin.reciprocal Float.tan)), ("sec", .one (Builtin.reciprocal Float.cos)),
  ("csc", .one (Builtin.reciprocal Float.sin)),
  ("asin", .one Float.asin), ("acos", .one Float.acos), ("atan", .one Float.atan),
  ("sinh", .one Float.sinh), ("cosh", .one Float.cosh), ("tanh", .one Float.tanh),
  ("log", .one (Builtin.logarithm Float.log)), ("ln", .one (Builtin.logarithm Float.log)),
  ("log2", .one (Builtin.logarithm Float.log2)), ("log10", .one (Builtin.logarithm Float.log10)),
  ("log1p", .one logOnePlus), ("exp", .one Float.exp), ("expm1", .one expMinusOne),
  ("sqrt", .one Float.sqrt), ("cbrt", .one Builtin.cubeRoot), ("abs", .one Float.abs),
  ("ceil", .one ceiling), ("floor", .one floor), ("signum", .one Builtin.signum),
  ("toradian", .one Builtin.toRadians), ("todegree", .one Builtin.toDegrees),
  ("pow", .two Float.pow), ("atan2", .two Float.atan2),
  ("min", .two Builtin.smaller), ("max", .two Builtin.larger)]

def builtin? (name : String) : Option Builtin := builtins.lookup name

def constants : List (String × Float) :=
  [("pi", Builtin.pi), ("π", Builtin.pi), ("e", 2.718281828459045),
    ("φ", (1.0 + Float.sqrt 5.0) / 2.0)]

/-- The call `int(integrand, lower, upper)` is a definite integral. -/
def integralName : String := "int"

/-- The variable that an integral binds in its integrand. -/
def integrationVariable : String := "x"

/-- The names that are callable without any definition. -/
def isReserved (name : String) : Bool := (builtin? name).isSome || name == integralName

end GraphCalc
