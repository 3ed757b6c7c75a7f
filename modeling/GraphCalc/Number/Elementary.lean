import GraphCalc.Number.Binary64

/-! # Logarithms near one and exponentials near zero

`1 + x` and `exp x` round off the digits of a small `x`. The two functions here keep them, as the usual
mathematical libraries do and by the same steps: a power of two is split off, a polynomial stands for
the function on the short interval that is left, and what the splitting rounded off is carried along.
A machine that fuses a product with a sum can still differ from them in the last place of a few values.

* `polynomial`: Horner's rule;
* `logOnePlus`: the logarithm of `1 + x`, by way of `logSplit`;
* `expMinusOne`: the exponential less one, by way of `powersIn` and `expSplit`.
-/

namespace GraphCalc.Binary64
set_option autoImplicit false

/-- The polynomial with these coefficients, the constant one first. -/
def polynomial (coefficients : List Float) (z : Float) : Float :=
  coefficients.foldr (fun coefficient tail => coefficient + z * tail) 0.0

/-- The logarithm of two in 32 bits, so that its small multiples are exact. -/
def logTwoHead : Float := 0.6931471803691238

/-- What `logTwoHead` leaves of the logarithm of two. -/
def logTwoTail : Float := 1.9082149292705877e-10

/-- The power of two with the given exponent. -/
def powerOfTwo (k : Int) : Float := Float.scaleB 1.0 k

/-! ## The logarithm -/

def logCoefficients : List Float :=
  [0.6666666666666735, 0.3999999999940942, 0.2857142874366239, 0.22222198432149784,
    0.1818357216161805, 0.15313837699209373, 0.14798198605116586]

/-- The logarithm of `2 ^ k * (1 + f)` for a small `f`, with a `correction` to add. -/
def logSplit (k : Int) (f correction : Float) : Float :=
  let ratio := f / (2.0 + f)
  let square := ratio * ratio
  let half := 0.5 * f * f
  let series := ratio * (half + square * polynomial logCoefficients square)
  if k = 0 then f - (half - series)
  else
    let whole := Float.ofInt k
    whole * logTwoHead - ((half - (series + (whole * logTwoTail + correction))) - f)

/-- The logarithm of `1 + x`. -/
def logOnePlus (x : Float) : Float :=
  if x == -1.0 then -infinity
  else if x < -1.0 || x.isNaN then nan
  else if x == infinity || x.abs < 5.551115123125783e-17 then x
  else if x.abs < 1.862645149230957e-09 then x - x * x * 0.5
  else if -0.2928934097290039 < x && x < 0.4142136573791504 then logSplit 0 x 0.0
  else
    -- From 2 ^ 53 on the sum would no longer tell `1 + x` from `x`.
    let whole := 9007199254740992.0 ≤ x
    let sum := if whole then x else 1.0 + x
    let (mantissa, exponent) := sum.frExp
    let lost := if whole then 0.0 else if 1 < exponent then 1.0 - (sum - x) else x - (sum - 1.0)
    if 2.0 * mantissa < 1.4142131805419922 then logSplit (exponent - 1) (2.0 * mantissa - 1.0) (lost / sum)
    else logSplit exponent (mantissa - 1.0) (lost / sum)

/-! ## The exponential -/

def expCoefficients : List Float :=
  [1.0, -0.03333333333333313, 0.0015873015872548146, -7.93650757867488e-05,
    4.008217827329362e-06, -2.0109921818362437e-07]

/-- How many doublings `expMinusOne` splits off its argument: about `x / log 2`, none near zero. -/
def powersIn (x : Float) : Int :=
  if x.abs < 0.3465735912322998 then 0
  else if x.abs < 1.0397205352783203 then if 0.0 < x then 1 else -1
  else (1.4426950408889634 * x + withSign (isNegative x) 0.5).toInt64.toInt

/-- `2 ^ k * exp (f - correction) - 1` for a small `f`. The order of the sums depends on how far apart
the two terms are. -/
def expSplit (k : Int) (f correction : Float) : Float :=
  let half := 0.5 * f
  let square := f * half
  let series := polynomial expCoefficients square
  let slope := 3.0 - series * half
  let quotient := square * ((series - slope) / (6.0 - f * slope))
  if k = 0 then f - (f * quotient - square)
  else
    let rest := f * (quotient - correction) - correction - square
    if k = -1 then 0.5 * (f - rest) - 0.5
    else if k = 1 then if f < -0.25 then -2.0 * (rest - (f + 0.5)) else 1.0 + 2.0 * (f - rest)
    else if k < -1 || 56 < k then (1.0 - (rest - f)).scaleB k - 1.0
    else if k < 20 then (1.0 - powerOfTwo (-k) - (rest - f)).scaleB k
    else (f - (rest + powerOfTwo (-k)) + 1.0).scaleB k

/-- The exponential of `x` less one. -/
def expMinusOne (x : Float) : Float :=
  if x.isNaN || x.abs < 5.551115123125783e-17 then x
  else if 709.782712893384 < x then infinity
  else if x < -40.0 then -1.0
  else
    let k := powersIn x
    let whole := Float.ofInt k
    let head := x - whole * logTwoHead
    let tail := whole * logTwoTail
    let reduced := head - tail
    expSplit k reduced ((head - reduced) - tail)

end GraphCalc.Binary64
