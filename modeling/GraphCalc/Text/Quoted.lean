import GraphCalc.Text.Printable

/-! # Quoted texts

Codes of characters are written with small hexadecimal digits in a fixed number of places, and read
with digits of either case. A text inside a shown list or table of names stands in single quotes, or in
double quotes if it holds single quotes only. The quote in use and the backslash are escaped, line ends
and tabs by a letter, and every other character that is not printable by its code. Main notions:

* `hexDigits`, `hexNumber?`: numbers in hexadecimal digits, written and read;
* `quoted`: a text in quotes.
-/

namespace GraphCalc.Text
set_option autoImplicit false

/-! ## Hexadecimal digits -/

def hexDigit (n : Nat) : Char :=
  if n < 10 then Char.ofNat (0x30 + n) else Char.ofNat (0x57 + n)

/-- The last `places` digits of a number. -/
def hexDigits : Nat → Nat → List Char
  | 0, _ => []
  | places + 1, n => hexDigits places (n / 16) ++ [hexDigit (n % 16)]

def hexValue? (c : Char) : Option Nat :=
  let n := c.toNat
  if 0x30 ≤ n ∧ n ≤ 0x39 then some (n - 0x30)
  else if 0x61 ≤ n ∧ n ≤ 0x66 then some (n - 0x57)
  else if 0x41 ≤ n ∧ n ≤ 0x46 then some (n - 0x37)
  else none

/-- The number that digits write after digits that write `high`. -/
def hexNumber? (high : Nat) : List Char → Option Nat
  | [] => some high
  | c :: rest => (hexValue? c).bind fun d => hexNumber? (16 * high + d) rest

/-! ## Quotes -/

/-- The code of a character in the shortest of three forms. -/
def codeEscape (c : Char) : List Char :=
  let n := c.toNat
  if n < 0x100 then '\\' :: 'x' :: hexDigits 2 n
  else if n < 0x10000 then '\\' :: 'u' :: hexDigits 4 n
  else '\\' :: 'U' :: hexDigits 8 n

def quotedChar (quote c : Char) : List Char :=
  if c = quote ∨ c = '\\' then ['\\', c]
  else if c = '\n' then ['\\', 'n']
  else if c = '\r' then ['\\', 'r']
  else if c = '\t' then ['\\', 't']
  else if isPrintable c then [c]
  else codeEscape c

def quoteFor (text : List Char) : Char :=
  if text.contains '\'' && !text.contains '"' then '"' else '\''

def quoted (text : List Char) : List Char :=
  let quote := quoteFor text
  quote :: text.flatMap (quotedChar quote) ++ [quote]

end GraphCalc.Text
