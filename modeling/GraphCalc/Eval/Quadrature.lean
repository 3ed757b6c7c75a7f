import GraphCalc.Number.Scalar

/-! # Quadrature

Definite integrals by the composite rule of Simpson. The interval is cut into an even number of
parts; the samples at the cuts have the weights 1, 4, 2, 4, …, 2, 4, 1. Main notions:

* `evenCount`: the number of parts used, an odd count being raised by one;
* `simpson`: the rule on an interval from left to right;
* `integral`: the integral between any two bounds.

The samples are computations of any kind that may throw errors. A sample is a value, or `none` where the
integrand is undefined; that makes the integral undefined, and no later sample is then taken.
-/

namespace GraphCalc.Quadrature
set_option autoImplicit false

/-- Reasons why there is no grid to sample on. -/
inductive GridError where
  /-- The number of parts is zero. -/
  | noIntervals
  /-- The number of parts is beyond the largest scalar. -/
  | tooManyIntervals
  deriving DecidableEq, Repr

variable {α : Type} [Scalar α] {m : Type → Type} [Monad m]

/-- The least even count that is not below `n`. -/
def evenCount (n : Int) : Int := if n % 2 = 0 then n else n + 1

/-- The cut number `i` of the parts of width `h` from `a` on. -/
@[specialize] def abscissa (a h : α) (i : Nat) : α := a + Scalar.ofInt (i : Int) * h

/-- A sample with its weight among the samples `0` to `last`. -/
@[specialize] def weighted (last i : Nat) (y : α) : α :=
  if i = 0 ∨ i = last then y
  else if i % 2 = 1 then Scalar.ofInt 4 * y
  else Scalar.ofInt 2 * y

/-- The weighted sum of `count` samples from number `i` on, added to `total`. -/
@[specialize] def weightedSum (sample : Nat → m (Option α)) (last : Nat) :
    Nat → Nat → α → m (Option α)
  | 0, _, total => return some total
  | count + 1, i, total => do
    match ← sample i with
    | none => return none
    | some y => weightedSum sample last count (i + 1) (total + weighted last i y)

variable {ε : Type} [MonadExceptOf ε m]

/-- Simpson's rule from `a` to `b` in at least `intervals` parts. A negative count leaves no sample,
and the sum is then empty. -/
@[specialize] def simpson (fault : GridError → ε) (intervals : Int)
    (f : α → m (Option α)) (a b : α) : m (Option α) :=
  let n := evenCount intervals
  if n = 0 then throw (fault .noIntervals)
  else if !Scalar.isFinite (Scalar.ofInt n : α) then throw (fault .tooManyIntervals)
  else do
    let h := (b - a) / Scalar.ofInt n
    let count := (n + 1).toNat
    match ← weightedSum (fun i => f (abscissa a h i)) n.toNat count 0 (Scalar.ofInt 0) with
    | none => return none
    | some total => return some (total * h / Scalar.ofInt 3)

/-- The integral from `a` to `b`: undefined unless both bounds are finite, zero between equal
bounds, and with the opposite sign when the bounds are exchanged. -/
@[specialize] def integral (fault : GridError → ε) (intervals : Int)
    (f : α → m (Option α)) (a b : α) : m (Option α) :=
  if !(Scalar.isFinite a && Scalar.isFinite b) then return none
  else if Scalar.equal a b then return some (Scalar.ofInt 0)
  else if Scalar.less b a then do
    let v ← simpson fault intervals f b a
    return v.map fun v => -v
  else simpson fault intervals f a b

end GraphCalc.Quadrature
