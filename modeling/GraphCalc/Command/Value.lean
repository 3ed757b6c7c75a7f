import GraphCalc.Number.Decimal
import GraphCalc.Text.Cutting

/-! # Values of options

How the number that follows an option is written. Only ASCII digits count. Main notions:

* `OptionValue.float?`: a numeral or a word for a number, with blanks around it; or a text without
  blanks that is one once its underscores are taken out, wherever they stand inside it;
* `OptionValue.int?`: an integer with blanks around it, an optional sign, single underscores inside,
  and an optional fraction of zeros.
-/

namespace GraphCalc.OptionValue
open GraphCalc.Text
set_option autoImplicit false

/-! ## Underscores -/

/-- Whether two underscores stand side by side. -/
def hasDouble : List Char → Bool
  | [] => false
  | c :: rest => (c == '_' && rest.head? == some '_') || hasDouble rest

/-- The text without its underscores. There have to be some, none of them at an end and no two side
by side. -/
def joined? (text : List Char) : Option (List Char) :=
  if text.contains '_' && text.head? != some '_' && text.getLast? != some '_' &&
      !hasDouble text then
    some (text.filter (· != '_'))
  else none

/-! ## Numbers -/

/-- The number that a text of ASCII characters is. -/
def plain? (text : List Char) : Option Float :=
  if text.all fun c => c.toNat < 128 then Numeral.readSigned? text else none

/-- The number that a text is. A text with underscores may not have blanks around it. -/
def float? (text : List Char) : Option Float :=
  match plain? (Numeral.withoutMargin text) with
  | some v => some v
  | none => (joined? text).bind plain?

/-! ## Integers -/

/-- The text before the point, if nothing but zeros follows it, and at least one; the whole text if
there is no point. -/
def wholePart? (text : List Char) : Option (List Char) :=
  match splitFirst? '.' text with
  | some (whole, fraction) =>
    if !fraction.isEmpty && fraction.all (· == '0') then some whole else none
  | none => some text

/-- The natural number that a text is. It starts and ends with a digit, and no two underscores stand
side by side except among its leading zeros, which do not count. -/
def natural? (text : List Char) : Option Nat :=
  let significant := text.dropWhile fun c => c == '0' || c == '_'
  let digits := significant.filter (· != '_')
  if (text.head?.map Char.isDigit).getD false && (text.getLast?.map Char.isDigit).getD false &&
      digits.all Char.isDigit && !hasDouble significant &&
      digits.length ≤ Numeral.maxIntegerDigits then
    some (digitsValue digits)
  else none

def int? (text : List Char) : Option Int := do
  let (negative, magnitude) := Numeral.splitSign (Numeral.withoutMargin text)
  let size : Int := ← natural? (← wholePart? magnitude)
  return if negative then -size else size

end GraphCalc.OptionValue
