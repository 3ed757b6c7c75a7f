import GraphCalc.Number.Binary64
import GraphCalc.Text.Cutting
import GraphCalc.Text.Digit

/-! # Decimal numerals

How numbers are read. A *numeral* is a run of digits with an optional point and an optional
exponent, such as `3`, `3.`, `.5` or `2.5E-4`; digits of every script count. Main notions:

* `Decimal`: a natural scaled by a power of ten, and `Decimal.toFloat`, the double nearest to it;
* `Numeral`: the parts of a numeral as written, `Numeral.text` and `Numeral.value`;
* `Numeral.longest?`: the longest numeral at the start of a text;
* `readFloat?`: a whole text as a number: blanks around, a sign, underscores between digits, and the
  words for infinity and the undefined value are accepted;
* `readInt?`: a whole text as an integer under the same rules, of at most `maxIntegerDigits` digits.
-/

namespace GraphCalc
open GraphCalc.Text
set_option autoImplicit false

/-! ## Scaled naturals -/

/-- The number `digits * 10 ^ exponent`. -/
structure Decimal where
  digits : Nat
  exponent : Int
  deriving DecidableEq, Repr

/-- The nearest double. An exponent far outside the range of doubles is decided without computing
the power of ten: the result is then infinity or zero whatever the digits. -/
def Decimal.toFloat (d : Decimal) : Float :=
  if d.digits = 0 then 0.0
  else if 400 ≤ d.exponent then Binary64.infinity
  else if d.exponent + d.digits.log2 + 400 ≤ 0 then 0.0
  else Binary64.ofRatio (d.digits * Nat.pow 10 d.exponent.toNat) (Nat.pow 10 (-d.exponent).toNat)

/-! ## Numerals as written -/

/-- The exponent of a numeral: its mark, an optional sign, and its digits. -/
structure Numeral.Exponent where
  mark : Char
  sign : Option Char
  digits : List Char
  deriving DecidableEq, Repr

/-- A numeral: the digits before the point, the digits after it if there is a point, and the
exponent if there is one. -/
structure Numeral where
  whole : List Char
  fraction : Option (List Char)
  exponent : Option Numeral.Exponent
  deriving DecidableEq, Repr

namespace Numeral

def Exponent.text (e : Exponent) : List Char := e.mark :: e.sign.toList ++ e.digits

def Exponent.value (e : Exponent) : Int :=
  let size : Int := digitsValue e.digits
  if e.sign = some '-' then -size else size

/-- The digits after the point, none if there is no point. -/
def fractionDigits (n : Numeral) : List Char := n.fraction.getD []

def text (n : Numeral) : List Char :=
  n.whole ++ (n.fraction.map ('.' :: ·)).getD [] ++ (n.exponent.map Exponent.text).getD []

def decimal (n : Numeral) : Decimal :=
  ⟨digitsValue (n.whole ++ n.fractionDigits),
    (n.exponent.map Exponent.value).getD 0 - n.fractionDigits.length⟩

def value (n : Numeral) : Float := n.decimal.toFloat

/-! ## The longest numeral -/

/-- An exponent at the start of a text. A mark without digits after it is none. -/
def Exponent.longest? : List Char → Option Exponent
  | mark :: rest =>
    if mark = 'e' ∨ mark = 'E' then
      let (sign, rest) : Option Char × List Char := match rest with
        | c :: more => if c = '+' ∨ c = '-' then (some c, more) else (none, rest)
        | [] => (none, rest)
      let digits := rest.takeWhile isDigit
      if digits.isEmpty then none else some ⟨mark, sign, digits⟩
    else none
  | [] => none

/-- The longest numeral at the start of a text: digits on at least one side of the point. -/
def longest? (text : List Char) : Option Numeral :=
  let whole := text.takeWhile isDigit
  match text.dropWhile isDigit with
  | '.' :: rest =>
    let fraction := rest.takeWhile isDigit
    if whole.isEmpty && fraction.isEmpty then none
    else some ⟨whole, some fraction, Exponent.longest? (rest.dropWhile isDigit)⟩
  | rest => if whole.isEmpty then none else some ⟨whole, none, Exponent.longest? rest⟩

end Numeral

/-! ## Whole texts as numbers -/

namespace Numeral

/-- The blanks allowed around a number: all but the information separators. -/
def isMargin (c : Char) : Bool := isBlank c && !(28 ≤ c.toNat && c.toNat ≤ 31)

/-- The text without the blanks allowed around a number. -/
def withoutMargin (text : List Char) : List Char :=
  ((text.dropWhile isMargin).reverse.dropWhile isMargin).reverse

/-- The text without its underscores, each of which has to stand between two digits. The flag says
whether the character before was a digit. -/
def ungroup : Bool → List Char → Option (List Char)
  | _, [] => some []
  | afterDigit, '_' :: rest =>
    if afterDigit && (rest.head?.map isDigit).getD false then ungroup false rest else none
  | _, c :: rest => (ungroup (isDigit c) rest).map (c :: ·)

/-- The words for numbers without a numeral, in small letters. -/
def words : List (String × Float) :=
  [("inf", Binary64.infinity), ("infinity", Binary64.infinity), ("nan", Binary64.nan)]

/-- The number that an unsigned text is, as a numeral or as a word in letters of either case. -/
def readMagnitude? (text : List Char) : Option Float :=
  match words.lookup (String.ofList (text.map Char.toLower)) with
  | some v => some v
  | none => match longest? text with
    | some n => if n.text = text then some n.value else none
    | none => none

/-- A sign at the start of a text, and what follows it. -/
def splitSign : List Char → Bool × List Char
  | '-' :: rest => (true, rest)
  | '+' :: rest => (false, rest)
  | text => (false, text)

/-- The number that a text without blanks and underscores is. -/
def readSigned? (text : List Char) : Option Float := do
  let (negative, magnitude) := splitSign text
  let v ← readMagnitude? magnitude
  return if negative then -v else v

def readFloat? (text : List Char) : Option Float :=
  (ungroup false (withoutMargin text)).bind readSigned?

/-- Longer integers are refused. -/
def maxIntegerDigits : Nat := 4300

def readInt? (text : List Char) : Option Int := do
  let (negative, digits) := splitSign (← ungroup false (withoutMargin text))
  if digits.isEmpty || !digits.all isDigit || maxIntegerDigits < digits.length then none
  else
    let size : Int := digitsValue digits
    return if negative then -size else size

end Numeral
end GraphCalc
