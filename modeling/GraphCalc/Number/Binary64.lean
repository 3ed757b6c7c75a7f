/-! # Exact values of doubles

Every finite double is a signed whole multiple of a power of two. This module takes a double apart
and rounds an exact quotient of naturals to the nearest double, a half going to the even neighbour.
On these two it builds the operations whose result is fixed by exact arithmetic:

* `parts`: sign, mantissa and exponent of a finite double;
* `ofRatio`: the double nearest to a quotient of naturals;
* `remainder`: the exact remainder of a division that truncates;
* `hypotenuse`: the double nearest to the root of a sum of two squares;
* `next`, `previous`: the neighbours in the order of doubles;
* `floor`, `ceiling`: rounding to a whole double, a zero result being positive.
-/

namespace GraphCalc.Binary64
set_option autoImplicit false

/-! ## Special values -/

def infinity : Float := Float.ofBits 0x7ff0000000000000

def nan : Float := Float.ofBits 0x7ff8000000000000

/-- Whether the sign bit is set, as it is also for negative zero. -/
def isNegative (v : Float) : Bool := Nat.pow 2 63 ≤ v.toBits.toNat

/-- The magnitude of `v` under a given sign. -/
def withSign (negative : Bool) (v : Float) : Float := if negative then -v.abs else v.abs

/-! ## Taking apart -/

/-- The number `mantissa * 2 ^ exponent` under a sign. -/
structure Parts where
  negative : Bool
  mantissa : Nat
  exponent : Int
  deriving DecidableEq, Repr

/-- The parts of a finite double; the mantissa has 53 bits unless the double is subnormal. -/
def parts (v : Float) : Parts :=
  let bits : Nat := v.toBits.toNat % Nat.pow 2 63
  let field : Nat := bits / Nat.pow 2 52
  let fraction : Nat := bits % Nat.pow 2 52
  if field = 0 then ⟨isNegative v, fraction, -1074⟩
  else ⟨isNegative v, fraction + Nat.pow 2 52, (field : Int) - 1075⟩

/-- Numerator of the magnitude as a quotient of naturals. -/
def Parts.numerator (p : Parts) : Nat := p.mantissa * Nat.pow 2 p.exponent.toNat

/-- Denominator of the magnitude as a quotient of naturals. -/
def Parts.denominator (p : Parts) : Nat := Nat.pow 2 (-p.exponent).toNat

/-! ## Rounding -/

/-- The natural nearest to `n / d`, a half going to the even neighbour. -/
def roundQuotient (n d : Nat) : Nat :=
  let q := n / d
  let twice := 2 * (n % d)
  if twice < d then q
  else if d < twice then q + 1
  else if q % 2 = 0 then q else q + 1

/-- The exponent of the last place of the doubles around `num / den`. -/
def lastPlace (num den : Nat) : Int :=
  let guess : Int := (num.log2 : Int) - den.log2
  let below := num * Nat.pow 2 (-guess).toNat < den * Nat.pow 2 guess.toNat
  let lead := if below then guess - 1 else guess
  max (-1074) (lead - 52)

/-- The bits of the double nearest to `num / den`; beyond the largest double, those of infinity.
A mantissa that rounds up to the next power of two carries into the exponent field by itself. -/
def ratioBits (num den : Nat) : Nat :=
  if num = 0 then 0
  else
    let place := lastPlace num den
    let mantissa := roundQuotient (num * Nat.pow 2 (-place).toNat) (den * Nat.pow 2 place.toNat)
    min (0x7ff * Nat.pow 2 52) ((place + 1074).toNat * Nat.pow 2 52 + mantissa)

/-- The double nearest to `num / den`. -/
def ofRatio (num den : Nat) : Float := Float.ofBits (UInt64.ofNat (ratioBits num den))

/-- The double nearest to `mantissa * 2 ^ exponent`. -/
def ofScaled (mantissa : Nat) (exponent : Int) : Float :=
  ofRatio (mantissa * Nat.pow 2 exponent.toNat) (Nat.pow 2 (-exponent).toNat)

/-! ## Operations with an exact rule -/

/-- The remainder of `a / b` for `b` not zero, with the sign of `a`; undefined for infinite `a`. -/
def remainder (a b : Float) : Float :=
  if a.isNaN || b.isNaN || a.isInf then nan
  else if b.isInf then a
  else
    let p := parts a
    let q := parts b
    let place := min p.exponent q.exponent
    let dividend := p.mantissa * Nat.pow 2 (p.exponent - place).toNat
    let divisor := q.mantissa * Nat.pow 2 (q.exponent - place).toNat
    withSign p.negative (ofScaled (dividend % divisor) place)

/-- The length of the hypotenuse over two legs; infinite as soon as a leg is. The root is taken of
an exact whole number, with enough bits and a mark for a root that is not whole. -/
def hypotenuse (a b : Float) : Float :=
  if a.isInf || b.isInf then infinity
  else if a.isNaN || b.isNaN then nan
  else
    let p := parts a
    let q := parts b
    let place := min p.exponent q.exponent
    let leg := p.mantissa * Nat.pow 2 (p.exponent - place).toNat
    let other := q.mantissa * Nat.pow 2 (q.exponent - place).toNat
    let square := (leg * leg + other * other) * Nat.pow 2 128
    let root := square.sqrt
    let inexact := if root * root = square then 0 else 1
    ofScaled (2 * root + inexact) (place - 65)

/-- The next larger double; infinity and the undefined value stay. -/
def next (v : Float) : Float :=
  if v.isNaN || v == infinity then v
  else if v == 0.0 then Float.ofBits 1
  else if isNegative v then Float.ofBits (v.toBits - 1)
  else Float.ofBits (v.toBits + 1)

/-- The next smaller double. -/
def previous (v : Float) : Float := -next (-v)

/-- The largest whole number not above `v`. Adding zero turns a negative zero positive. -/
def floor (v : Float) : Float := if v.isFinite then v.floor + 0.0 else v

/-- The least whole number not below `v`. -/
def ceiling (v : Float) : Float := if v.isFinite then v.ceil + 0.0 else v

end GraphCalc.Binary64
