import GraphCalc.Number.Shortest

/-! # How numbers are written

A `Style` says which digits are chosen and how they are laid out. The program uses three:

* `Style.full`: the shortest digits that read back, with a fraction even for whole numbers;
* `Style.general`: at most six digits, as in descriptions of bounds;
* `Style.compact`: at most ten digits, as in reports.

`writeFloat` writes any double in a style; `displayFloat` is the form used in reports, with
symbols for infinity and a word for the undefined value.
-/

namespace GraphCalc
set_option autoImplicit false

/-! ## Layout of digits -/

/-- How a double is written. -/
structure Style where
  /-- How the digits of a positive finite double are chosen. -/
  digits : Float → Decimal
  /-- The first power of ten that is written with an exponent; below `-4` all are. -/
  scientificFrom : Int
  /-- Whether a whole number in positional form keeps a fraction, and zero too. -/
  keepsFraction : Bool

def withoutTrailingZeros (digits : List Char) : List Char :=
  (digits.reverse.dropWhile (· == '0')).reverse

/-- An exponent mark with sign and at least two digits. -/
def exponentText (power : Int) : List Char :=
  let digits := power.natAbs.repr.toList
  'e' :: (if power < 0 then '-' else '+') :: (if digits.length < 2 then '0' :: digits else digits)

/-- Digits with a point after the first one, and the exponent. -/
def scientificText (digits : List Char) (lead : Int) : List Char :=
  let fraction := digits.drop 1
  digits.take 1 ++ (if fraction.isEmpty then [] else '.' :: fraction) ++ exponentText lead

/-- Digits with a point where the powers of ten turn negative. -/
def positionalText (keepsFraction : Bool) (digits : List Char) (lead : Int) : List Char :=
  if lead < 0 then '0' :: '.' :: List.replicate (-lead - 1).toNat '0' ++ digits
  else
    let whole := (lead + 1).toNat
    let fraction := digits.drop whole
    digits.take whole ++ List.replicate (whole - digits.length) '0' ++
      (if fraction.isEmpty then (if keepsFraction then ['.', '0'] else []) else '.' :: fraction)

def Decimal.text (style : Style) (d : Decimal) : List Char :=
  let all := d.digits.repr.toList
  let lead : Int := d.exponent + all.length - 1
  let digits := withoutTrailingZeros all
  if -4 ≤ lead ∧ lead < style.scientificFrom then positionalText style.keepsFraction digits lead
  else scientificText digits lead

/-! ## Any double -/

def magnitudeText (style : Style) (v : Float) : List Char :=
  if v.isInf then "inf".toList
  else if v == 0.0 then (if style.keepsFraction then "0.0".toList else "0".toList)
  else (style.digits v).text style

/-- A double in a style. The undefined value has no sign; negative zero has one. -/
def floatText (style : Style) (v : Float) : List Char :=
  if v.isNaN then "nan".toList
  else if Binary64.isNegative v then '-' :: magnitudeText style v.abs
  else magnitudeText style v

/-! ## The styles in use -/

namespace Style

/-- The fewest digits that read back; positional below ten to the sixteenth. -/
def full : Style := ⟨Decimal.shortest, 16, true⟩

/-- At most `count` digits, positional while the digits reach the units. -/
def significant (count : Nat) : Style := ⟨Decimal.rounded count, count, false⟩

/-- At most six digits. -/
def general : Style := significant 6

/-- At most ten digits. -/
def compact : Style := significant 10

end Style

def writeFloat (style : Style) (v : Float) : String := String.ofList (floatText style v)

def displayFloat (v : Float) : String :=
  if v.isNaN then "undefined"
  else if v.isInf then (if 0.0 < v then "∞" else "-∞")
  else if v == 0.0 then "0"
  else writeFloat Style.compact v

end GraphCalc
