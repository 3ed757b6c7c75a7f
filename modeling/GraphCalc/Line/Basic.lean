import GraphCalc.Eval.Definition
import GraphCalc.Line.Clause

/-! # Worksheet lines

A line is an expression in `x`, an equation `y = …`, a vertical line `x = …`, or a definition
`f(t) = …`, which also draws the function it defines. The last pair of braces holds limits. Main
notions:

* `renameWord`: a name in a text replaced by another where it stands as a whole word;
* `bracePair?`: the text before the last pair of braces and the text in it;
* `Definition.ofLine?`: the function that a line makes callable;
* `Line`: what a line draws, with its limits and the function it defines;
* `Line.read`: a line classified.
-/

namespace GraphCalc
open GraphCalc.Text
set_option autoImplicit false

/-! ## Whole words -/

/-- What follows a word at the start of a text, if the word does not go on there. -/
def afterWord? (word text : List Char) : Option (List Char) :=
  match afterStart? word text with
  | some rest => if (rest.head?.map isNamePart).getD false then none else some rest
  | none => none

/-- Replaces a word wherever it stands between characters that are no part of a name. `inWord` says
whether the character before is such a part, and `skip` how many characters of a word just replaced
are still ahead. -/
def renameFrom (old new : List Char) (inWord : Bool) (skip : Nat) : List Char → List Char
  | [] => []
  | c :: rest =>
    match skip with
    | skip + 1 => renameFrom old new (isNamePart c) skip rest
    | 0 =>
      if !inWord && (afterWord? old (c :: rest)).isSome then
        new ++ renameFrom old new (isNamePart c) (old.length - 1) rest
      else c :: renameFrom old new (isNamePart c) 0 rest

/-- A text with a whole word replaced. -/
def renameWord (old new text : List Char) : List Char :=
  if old = new then text else renameFrom old new false 0 text

/-! ## Braces -/

/-- The text before the last pair of braces and the text inside it. -/
def bracePair? (text : List Char) : Option (List Char × List Char) :=
  match splitLast? '\x7b' text with
  | some (before, after) => (splitLast? '\x7d' after).map fun (inside, _) => (before, inside)
  | none => none

/-! ## Definitions -/

/-- A name at the start of a text, and what follows it. -/
def splitName? : List Char → Option (List Char × List Char)
  | c :: rest =>
    if isNameStart c then some (c :: rest.takeWhile isNamePart, rest.dropWhile isNamePart) else none
  | [] => none

/-- The name and the parameter of a text `name(parameter)`, with blanks anywhere between. -/
def readHead? (text : List Char) : Option (List Char × List Char) := do
  let (name, rest) ← splitName? (trimStart text)
  let '(' :: rest := trimStart rest | none
  let (parameter, rest) ← splitName? (trimStart rest)
  let ')' :: rest := trimStart rest | none
  if (trimStart rest).isEmpty then some (name, parameter) else none

def isAxisName (name : List Char) : Bool :=
  name == ['x'] || name == ['X'] || name == ['y'] || name == ['Y']

/-- The definition in a text without limits: a head, an equals sign, and a body that is not blank.
The axes cannot be defined. -/
def Definition.ofEquation? (text : List Char) : Option Definition := do
  let (left, right) ← splitFirst? '=' text
  let (name, parameter) ← readHead? left
  let body := trim right
  if body.isEmpty || isAxisName name then none
  else some ⟨String.ofList name, String.ofList parameter, String.ofList body⟩

/-- The text of a line that is not limits. Braces with nothing before them belong to it. -/
def withoutLimits (line : List Char) : List Char :=
  match bracePair? line with
  | some (before, _) => if (trim before).isEmpty then line else before
  | none => line

def Definition.ofChars? (line : List Char) : Option Definition :=
  Definition.ofEquation? (withoutLimits line)

def Definition.ofLine? (line : String) : Option Definition := Definition.ofChars? line.toList

/-! ## Lines -/

/-- What a line draws: the graph of an expression in `x`, or a vertical line, at an undefined place
if its right side is no number. -/
inductive Line.Shape where
  | curve (base : String)
  | vertical (place : Float)
  deriving DecidableEq, Repr

/-- A classified line. -/
structure Line where
  source : String
  shape : Line.Shape
  limits : Option Limits
  definition : Option Definition
  deriving DecidableEq, Repr

namespace Line

def place? (line : Line) : Option Float :=
  match line.shape with
  | .vertical place => some place
  | .curve _ => none

/-- The expression that a line draws; empty for a vertical line. -/
def base (line : Line) : String :=
  match line.shape with
  | .vertical _ => ""
  | .curve base => base

/-- The shape and the definition of a line without limits and without blanks at its ends. -/
def classify (text : List Char) : Shape × Option Definition :=
  let plain := (Shape.curve (String.ofList text), none)
  match splitFirst? '=' text with
  | none => plain
  | some (left, right) =>
    let left := trim left
    let right := trim right
    if left == [] || left == ['y'] || left == ['Y'] then (.curve (String.ofList right), none)
    else if left == ['x'] || left == ['X'] then
      (.vertical ((Clause.number? right).getD Binary64.nan), none)
    else
      match Definition.ofChars? text with
      | some d =>
        let body := renameWord d.parameter.toList integrationVariable.toList d.body.toList
        (.curve (String.ofList body), some d)
      | none => plain

def read (source : String) : Line :=
  let text := source.toList
  let (shape, definition) := classify (trim (withoutLimits text))
  let limits := (bracePair? text).bind fun (_, inside) => Limits.read? inside
  ⟨source, shape, limits, definition⟩

end Line
end GraphCalc
