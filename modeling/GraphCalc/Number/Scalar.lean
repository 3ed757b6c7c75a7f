/-! # Scalars

Quadrature and root search use few operations of their numbers. `Scalar` collects them, so that the
same algorithm runs on doubles and can be studied on exact numbers, where every number is finite and
comparison is a total order.
-/

namespace GraphCalc
set_option autoImplicit false

/-- Arithmetic with whole numbers inside it, a finiteness test and comparisons. -/
class Scalar (α : Type) extends Add α, Sub α, Mul α, Div α, Neg α where
  /-- A whole number as a scalar. -/
  ofInt : Int → α
  /-- Neither infinite nor undefined. -/
  isFinite : α → Bool
  /-- Strictly smaller; false if either is undefined. -/
  less : α → α → Bool
  /-- Equal as numbers; false if either is undefined. -/
  equal : α → α → Bool
  /-- The distance from zero. -/
  abs : α → α

/-- Doubles. -/
instance : Scalar Float where
  ofInt := Float.ofInt
  isFinite := Float.isFinite
  less a b := decide (a < b)
  equal a b := a == b
  abs := Float.abs

end GraphCalc
