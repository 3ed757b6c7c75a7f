import GraphCalc.Number.Decimal

/-! # Tokens

The words of an expression text: numbers, names, operators, brackets and commas. Blanks separate
tokens and mean nothing else. Main notions:

* `Token`: a kind, the text as written, and the position of its first character, counted from zero
  in characters;
* `Token.Stream`: the tokens of a text and the position where the text ends;
* `Token.scan`: the tokens of a text, or the first character at which none starts.

A number is the longest numeral at its place and a name the longest run of letters, digits and
underscores; the constants written by one Greek letter are names of their own.
-/

namespace GraphCalc
open GraphCalc.Text
set_option autoImplicit false

/-! ## Tokens and faults -/

/-- What a token is. -/
inductive Token.Kind where
  | number (value : Float)
  | name
  | operator
  | opening
  | closing
  | comma
  deriving DecidableEq, Repr

/-- A word of an expression text. -/
structure Token where
  kind : Token.Kind
  text : String
  position : Nat
  deriving DecidableEq, Repr

/-- The tokens of a text in order, and the number of its characters. -/
structure Token.Stream where
  tokens : List Token
  finish : Nat
  deriving DecidableEq, Repr

/-- Why a text has no tokens. -/
inductive ScanError where
  /-- A point or digit that begins no numeral. -/
  | malformedNumber (character : Char) (position : Nat)
  /-- A character that begins no token. -/
  | unexpectedCharacter (character : Char) (position : Nat)
  deriving DecidableEq, Repr

/-- A position in words, as it ends the message of a fault. -/
def placeText (position : Nat) : String := " (at position " ++ position.repr ++ ")"

namespace ScanError

def position : ScanError → Nat
  | malformedNumber _ p => p
  | unexpectedCharacter _ p => p

def message : ScanError → String
  | malformedNumber c p => "Malformed number '" ++ c.toString ++ "'" ++ placeText p
  | unexpectedCharacter c p => "Unexpected character '" ++ c.toString ++ "'" ++ placeText p

end ScanError

/-! ## Characters of names -/

def isNameStart (c : Char) : Bool := c.isAlpha || c == '_'

def isNamePart (c : Char) : Bool := c.isAlphanum || c == '_'

/-- Is a name by itself. -/
def isSymbolConstant (c : Char) : Bool := c == 'π' || c == 'φ'

def isOperator (c : Char) : Bool := "+-*/^%".toList.contains c

/-! ## Scanning -/

namespace Token

/-- The kind of the token that starts with `c` at a position, and how many characters of the rest
belong to it. -/
def start (position : Nat) (c : Char) (rest : List Char) : Except ScanError (Kind × Nat) :=
  if isDigitLike c || c == '.' then
    match Numeral.longest? (c :: rest) with
    | some n => .ok (.number n.value, n.text.length - 1)
    | none => .error (.malformedNumber c position)
  else if isNameStart c then .ok (.name, (rest.takeWhile isNamePart).length)
  else if isSymbolConstant c then .ok (.name, 0)
  else if isOperator c then .ok (.operator, 0)
  else if c == '(' then .ok (.opening, 0)
  else if c == ')' then .ok (.closing, 0)
  else if c == ',' then .ok (.comma, 0)
  else .error (.unexpectedCharacter c position)

/-- The tokens of a text whose first character has the given position. -/
def scanFrom (position : Nat) : List Char → Except ScanError (List Token)
  | [] => .ok []
  | c :: rest =>
    if isBlank c then scanFrom (position + 1) rest
    else do
      let (kind, more) ← start position c rest
      let tokens ← scanFrom (position + 1 + more) (rest.drop more)
      return ⟨kind, String.ofList (c :: rest.take more), position⟩ :: tokens
termination_by text => text.length

def scan (text : List Char) : Except ScanError Stream := do
  return ⟨← scanFrom 0 text, text.length⟩

end Token
end GraphCalc
