import GraphCalc.Number.Decimal

/-! # Choosing decimal digits

Two ways to choose the digits in which a positive double is written, both decided on its exact
value in natural arithmetic:

* `shortest`: as few digits as read back as the same double and, of those, the nearest to it;
* `rounded`: a given number of digits, nearest to the exact value, a half going to the even digit.

Both give a `Decimal`. `leadingPlace` is the power of ten of the first digit.
-/

namespace GraphCalc.Decimal
open GraphCalc.Binary64
set_option autoImplicit false

/-! ## Places -/

/-- The power of ten of the first digit of `num / den`, for `num` and `den` positive. -/
def leadingPlace (num den : Nat) : Int :=
  let guess : Int := (num.repr.length : Int) - den.repr.length
  if num * Nat.pow 10 (-guess).toNat < den * Nat.pow 10 guess.toNat then guess - 1 else guess

/-- Numerator and denominator of `num / den` counted in units of `10 ^ place`. -/
def inUnits (num den : Nat) (place : Int) : Nat × Nat :=
  (num * Nat.pow 10 (-place).toNat, den * Nat.pow 10 place.toNat)

/-! ## Shortest digits -/

/-- Whether a decimal reads back as `v`. -/
def readsAs (d : Decimal) (v : Float) : Bool := d.toFloat.toBits == v.toBits

/-- The neighbour of `num / den` on the grid of `10 ^ place` that reads back as `v`. Of two such
neighbours it is the nearer one, and the even one if they are equally near. -/
def onGrid (v : Float) (num den : Nat) (place : Int) : Option Decimal :=
  let (n, d) := inUnits num den place
  let below : Decimal := ⟨n / d, place⟩
  let above : Decimal := ⟨n / d + 1, place⟩
  match below.readsAs v, above.readsAs v with
  | true, true => some ⟨roundQuotient n d, place⟩
  | true, false => some below
  | false, true => some above
  | false, false => none

/-- All digits of the number `mantissa * 2 ^ exponent`. -/
def exact (p : Parts) : Decimal :=
  let down := (-p.exponent).toNat
  ⟨p.numerator * Nat.pow 5 down, -down⟩

/-- No double needs more digits than these to read back. -/
def maxShortestDigits : Nat := 17

/-- The fewest digits that read back as the positive finite double `v`. -/
def shortest (v : Float) : Decimal :=
  let p := parts v
  let lead := leadingPlace p.numerator p.denominator
  let found := (List.range maxShortestDigits).findSome? fun (count : Nat) =>
    onGrid v p.numerator p.denominator (lead - (count : Int))
  found.getD (exact p)

/-! ## A given number of digits -/

/-- The positive finite double `v` in `count` digits. -/
def rounded (count : Nat) (v : Float) : Decimal :=
  let p := parts v
  let place := leadingPlace p.numerator p.denominator - count + 1
  let (n, d) := inUnits p.numerator p.denominator place
  ⟨roundQuotient n d, place⟩

end GraphCalc.Decimal
