import GraphCalc.Text.Quoted

/-! # Strings in JSON

A string is written in ASCII: quotes, backslashes and control characters are escaped, and characters
beyond ASCII are written as one or two UTF-16 units. Reading accepts every character from the space
on and all escapes. Main notions:

* `escaped`: a text as it stands between the quotes;
* `readUnits?`: the units of a string up to its closing quote, and what follows;
* `joinUnits`: units as characters, two halves of a pair being joined and a half without its
  partner being replaced.
-/

namespace GraphCalc.Json
open GraphCalc.Text
set_option autoImplicit false

/-! ## Writing -/

/-- A UTF-16 unit by its code. -/
def unitEscape (n : Nat) : List Char := '\\' :: 'u' :: hexDigits 4 n

/-- The letters that stand for control characters, with the characters. -/
def letterEscapes : List (Char × Char) :=
  [('n', '\n'), ('r', '\r'), ('t', '\t'), ('b', '\x08'), ('f', '\x0c')]

def escapedChar (c : Char) : List Char :=
  let n := c.toNat
  if c = '"' ∨ c = '\\' then ['\\', c]
  else match letterEscapes.find? (·.2 == c) with
    | some (letter, _) => ['\\', letter]
    | none =>
      if 0x20 ≤ n ∧ n < 0x7f then [c]
      else if n < 0x10000 then unitEscape n
      else
        unitEscape (0xd800 + (n - 0x10000) / 0x400) ++ unitEscape (0xdc00 + (n - 0x10000) % 0x400)

def escaped (text : List Char) : List Char := text.flatMap escapedChar

/-! ## Reading -/

/-- The unit that an escape letter other than `u` stands for. -/
def letterUnit? (letter : Char) : Option Nat :=
  if letter = '"' ∨ letter = '\\' ∨ letter = '/' then some letter.toNat
  else (letterEscapes.lookup letter).map Char.toNat

/-- The units of a string whose opening quote has been read, and what follows its closing quote. -/
def readUnits? : List Char → Option (List Nat × List Char)
  | [] => none
  | c :: rest =>
    if c = '"' then some ([], rest)
    else if c = '\\' then
      match rest with
      | [] => none
      | letter :: rest =>
        if letter = 'u' then
          match rest with
          | p :: q :: r :: s :: rest => do
            let unit ← hexNumber? 0 [p, q, r, s]
            let (units, rest) ← readUnits? rest
            return (unit :: units, rest)
          | _ => none
        else do
          let unit ← letterUnit? letter
          let (units, rest) ← readUnits? rest
          return (unit :: units, rest)
    else if c.toNat < 0x20 then none
    else do
      let (units, rest) ← readUnits? rest
      return (c.toNat :: units, rest)

/-- The first half of a pair. -/
def isHighHalf (n : Nat) : Bool := 0xd800 ≤ n && n < 0xdc00

/-- The second half of a pair. -/
def isLowHalf (n : Nat) : Bool := 0xdc00 ≤ n && n < 0xe000

/-- The character of a unit that is no half of a pair; the replacement character for a half. -/
def unitChar (n : Nat) : Char :=
  if isHighHalf n || isLowHalf n then '\ufffd' else Char.ofNat n

def joinUnits : List Nat → List Char
  | [] => []
  | [n] => [unitChar n]
  | n :: m :: rest =>
    if isHighHalf n && isLowHalf m then
      Char.ofNat (0x10000 + (n - 0xd800) * 0x400 + (m - 0xdc00)) :: joinUnits rest
    else unitChar n :: joinUnits (m :: rest)

/-- The text of a string whose opening quote has been read, and what follows its closing quote. -/
def readText? (text : List Char) : Option (List Char × List Char) :=
  (readUnits? text).map fun (units, rest) => (joinUnits units, rest)

end GraphCalc.Json
