import GraphCalc.Json.Escape
import GraphCalc.Json.Value
import GraphCalc.Number.Decimal

/-! # Reading JSON

A document is one value with blanks around it. Beside the standard literals the words for infinity
and for the undefined value are numbers, with a minus sign allowed before the former. A number
without point and exponent is an integer, which may have `Numeral.maxIntegerDigits` digits. Of
members with the same name the last one counts. Main notions:

* `readNumber?`: the longest number at the start of a text;
* `readValue?`: a value at the start of a text, within a number of nested steps;
* `Json.read?`: the value of a document.
-/

namespace GraphCalc.Json
open GraphCalc.Text
set_option autoImplicit false

/-! ## Blanks, words and numbers -/

def isSpace (c : Char) : Bool := c == ' ' || c == '\t' || c == '\n' || c == '\r'

/-- A text from its first character that is no blank. -/
def skipSpace (text : List Char) : List Char := text.dropWhile isSpace

/-- What follows a word at the start of a text. -/
def afterText? (word : String) (text : List Char) : Option (List Char) :=
  if word.toList.isPrefixOf text then some (text.drop word.length) else none

/-- The words with their values. -/
def words : List (String × Json) := [
  ("null", null), ("true", boolean true), ("false", boolean false), ("NaN", float Binary64.nan),
  ("Infinity", float Binary64.infinity), ("-Infinity", float (-Binary64.infinity))]

def readWord? (text : List Char) : Option (Json × List Char) :=
  words.findSome? fun (word, value) => (afterText? word text).map fun rest => (value, rest)

/-- The digits before the point: a zero, or a run that starts with another digit. -/
def readWhole? : List Char → Option (List Char × List Char)
  | c :: rest =>
    if c = '0' then some ([c], rest)
    else if c.isDigit then some (c :: rest.takeWhile Char.isDigit, rest.dropWhile Char.isDigit)
    else none
  | [] => none

def readFraction (text : List Char) : Option (List Char) × List Char :=
  match text with
  | '.' :: rest =>
    let digits := rest.takeWhile Char.isDigit
    if digits.isEmpty then (none, text) else (some digits, rest.drop digits.length)
  | _ => (none, text)

def readExponent (text : List Char) : Option Numeral.Exponent × List Char :=
  match Numeral.Exponent.longest? text with
  | some e =>
    let e := { e with digits := e.digits.takeWhile Char.isDigit }
    if e.digits.isEmpty then (none, text) else (some e, text.drop e.text.length)
  | none => (none, text)

def readNumber? (text : List Char) : Option (Json × List Char) := do
  let negative := text.head? == some '-'
  let (whole, rest) ← readWhole? (if negative then text.drop 1 else text)
  let (fraction, rest) := readFraction rest
  let (exponent, rest) := readExponent rest
  if fraction.isNone && exponent.isNone then
    if Numeral.maxIntegerDigits < whole.length then none
    else
      let size : Int := digitsValue whole
      return (integer (if negative then -size else size), rest)
  else
    let v := Numeral.value ⟨whole, fraction, exponent⟩
    return (float (if negative then -v else v), rest)

/-! ## Values -/

mutual

def readValue? : Nat → List Char → Option (Json × List Char)
  | 0, _ => none
  | steps + 1, text =>
    match text with
    | [] => none
    | c :: rest =>
      if c = '"' then (readText? rest).map fun (s, rest) => (string (String.ofList s), rest)
      else if c = '[' then
        match skipSpace rest with
        | ']' :: rest => some (array [], rest)
        | rest => do
          let (items, rest) ← readItems? steps rest
          return (array items, rest)
      else if c = '\x7b' then
        match skipSpace rest with
        | '\x7d' :: rest => some (object [], rest)
        | rest => do
          let (members, rest) ← readMembers? steps [] rest
          return (object members, rest)
      else (readWord? text).or (readNumber? text)

/-- The items of an array up to its closing bracket. -/
def readItems? : Nat → List Char → Option (List Json × List Char)
  | 0, _ => none
  | steps + 1, text => do
    let (item, rest) ← readValue? steps text
    match skipSpace rest with
    | ',' :: rest =>
      let (items, rest) ← readItems? steps (skipSpace rest)
      return (item :: items, rest)
    | ']' :: rest => return ([item], rest)
    | _ => none

/-- The members of an object up to its closing brace, added to those read before. -/
def readMembers? : Nat → List (String × Json) → List Char →
    Option (List (String × Json) × List Char)
  | 0, _, _ => none
  | steps + 1, members, text =>
    match text with
    | '"' :: rest => do
      let (name, rest) ← readText? rest
      let ':' :: rest := skipSpace rest | none
      let (value, rest) ← readValue? steps (skipSpace rest)
      let members := put (String.ofList name) value members
      match skipSpace rest with
      | ',' :: rest => readMembers? steps members (skipSpace rest)
      | '\x7d' :: rest => return (members, rest)
      | _ => none
    | _ => none

end

/-! ## Documents -/

/-- The value of a document. Every nested step but a bracket and the first item in it takes a
character of its own, so twice the length is enough. -/
def read? (text : List Char) : Option Json := do
  let (value, rest) ← readValue? (2 * text.length + 1) (skipSpace text)
  if (skipSpace rest).isEmpty then some value else none

end GraphCalc.Json
