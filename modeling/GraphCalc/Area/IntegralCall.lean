import GraphCalc.Eval.Builtin
import GraphCalc.Text.Cutting

/-! # Integrals in a text

An integral is written `int(integrand, lower, upper)`. It is found in any text by its brackets and
commas alone, also where the text is no expression. Main notions:

* `IntegralCall`: the three pieces, without blanks at their ends;
* `IntegralCall.all`: the integrals of a text from left to right, less those inside another one;
* `IntegralCall.isWhole`: whether a text is one integral and nothing else.
-/

namespace GraphCalc
open GraphCalc.Text
set_option autoImplicit false

/-- The integrand and the bounds of an integral, as written. -/
structure IntegralCall where
  integrand : String
  lower : String
  upper : String
  deriving DecidableEq, Repr

namespace IntegralCall

/-! ## Text of an integral -/

def key (c : IntegralCall) : String := c.integrand ++ "|" ++ c.lower ++ "|" ++ c.upper

def expression (c : IntegralCall) : String :=
  integralName ++ "(" ++ c.integrand ++ "," ++ c.lower ++ "," ++ c.upper ++ ")"

/-! ## Brackets and commas -/

/-- The text up to the bracket that closes `depth` open ones besides the outermost, if there is
one. -/
def upToClosing? (depth : Nat) : List Char → Option (List Char)
  | [] => none
  | c :: rest =>
    if c = '(' then (upToClosing? (depth + 1) rest).map (c :: ·)
    else if c = ')' then
      match depth with
      | 0 => some []
      | depth + 1 => (upToClosing? depth rest).map (c :: ·)
    else (upToClosing? depth rest).map (c :: ·)

/-- The pieces of a text between its commas outside all brackets. -/
def piecesFrom (depth : Int) : List Char → List (List Char)
  | [] => [[]]
  | c :: rest =>
    if c = ',' ∧ depth = 0 then [] :: piecesFrom depth rest
    else
      let depth := if c = '(' then depth + 1 else if c = ')' then depth - 1 else depth
      consFirst c (piecesFrom depth rest)

def ofInside? (inside : List Char) : Option IntegralCall :=
  match piecesFrom 0 inside with
  | [integrand, lower, upper] =>
    some ⟨String.ofList (trim integrand), String.ofList (trim lower), String.ofList (trim upper)⟩
  | _ => none

def opening : List Char := integralName.toList ++ ['(']

/-- An integral at the start of a text, and the number of its characters. -/
def atStart? (text : List Char) : Option (IntegralCall × Nat) := do
  let inside ← upToClosing? 0 (← afterStart? opening text)
  let call ← ofInside? inside
  return (call, opening.length + inside.length + 1)

/-! ## Searching -/

/-- The integrals of a text of which the first `skip` characters are passed over. -/
def allFrom (skip : Nat) : List Char → List IntegralCall
  | [] => []
  | c :: rest =>
    match skip with
    | skip + 1 => allFrom skip rest
    | 0 =>
      match atStart? (c :: rest) with
      | some (call, length) => call :: allFrom (length - 1) rest
      | none => allFrom 0 rest

def all (text : String) : List IntegralCall := allFrom 0 text.toList

/-- Whether a text, blanks at its ends aside, is one integral. -/
def isWhole (text : String) : Bool :=
  let trimmed := trim text.toList
  match atStart? trimmed with
  | some (_, length) => length == trimmed.length
  | none => false

end IntegralCall
end GraphCalc
