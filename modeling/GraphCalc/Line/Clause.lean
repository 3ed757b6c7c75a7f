import GraphCalc.Line.Limits
import GraphCalc.Text.Cutting

/-! # Reading limits

Limits are written as clauses joined by `&&`. A clause compares an axis with a number on its left,
on its right, or on both sides. A clause is about `x` if it holds that letter, else about `y` if it
holds that one, and its sides are what stands around the first such letter; sides that are no
comparison with a number, and clauses about no axis, say nothing. Main notions:

* `Comparison`: one of `<=`, `>=`, `<`, `>`, the longer ones tried first;
* `Clause.left?`, `Clause.right?`: the comparison on a side of the axis;
* `Limits.read?`: the limits of a text, if it gives any bound.
-/

namespace GraphCalc
open GraphCalc.Text
set_option autoImplicit false

/-! ## Comparisons -/

/-- A comparison sign. -/
structure Comparison where
  /-- Whether the left side is the smaller one. -/
  leftSmaller : Bool
  /-- Whether equality is allowed. -/
  inclusive : Bool
  deriving DecidableEq, Repr

namespace Comparison

def text (c : Comparison) : List Char :=
  (if c.leftSmaller then '<' else '>') :: (if c.inclusive then ['='] else [])

def all : List Comparison := [⟨true, true⟩, ⟨false, true⟩, ⟨true, false⟩, ⟨false, false⟩]

end Comparison

/-! ## Clauses -/

namespace Clause

/-- The number that a side of a comparison is. -/
def number? (text : List Char) : Option Float := Numeral.readFloat? (trim text)

/-- A comparison with a number, given how to cut off a sign: the first sign that fits decides. -/
def side? (cut : List Char → Option (List Char)) : Option (Comparison × Float) :=
  match Comparison.all.findSome? fun c => (cut c.text).map fun rest => (c, rest) with
  | some (c, rest) => (number? rest).map fun v => (c, v)
  | none => none

def left? (text : List Char) : Option (Comparison × Float) := side? fun sign => beforeEnd? sign text

def right? (text : List Char) : Option (Comparison × Float) :=
  side? fun sign => afterStart? sign text

/-- A number on the left of the axis is a lower bound if it is the smaller side. -/
def applyLeft (side : Option (Comparison × Float)) (r : Range) : Range :=
  match side with
  | none => r
  | some (c, v) => if c.leftSmaller then r.atLeast ⟨v, c.inclusive⟩ else r.atMost ⟨v, c.inclusive⟩

/-- A number on the right of the axis is an upper bound if the axis is the smaller side. -/
def applyRight (side : Option (Comparison × Float)) (r : Range) : Range :=
  match side with
  | none => r
  | some (c, v) => if c.leftSmaller then r.atMost ⟨v, c.inclusive⟩ else r.atLeast ⟨v, c.inclusive⟩

/-- The axis that a clause is about, with what stands left and right of it. -/
def sides? (clause : List Char) : Option (Axis × List Char × List Char) :=
  match splitFirst? Axis.x.letter clause with
  | some (left, right) => some (.x, left, right)
  | none => (splitFirst? Axis.y.letter clause).map fun (left, right) => (.y, left, right)

/-- The limits with the bounds of one more clause. -/
def apply (limits : Limits) (clause : List Char) : Limits :=
  match sides? clause with
  | some (axis, left, right) =>
    limits.modify axis fun r => applyRight (right? right) (applyLeft (left? left) r)
  | none => limits

end Clause

def Limits.clauses (text : List Char) : List (List Char) :=
  (splitPairs '&' (trim text)).map fun clause => clause.filter (· != ' ')

/-- The limits that a text gives; none if it gives no bound. -/
def Limits.read? (text : List Char) : Option Limits :=
  let limits := (Limits.clauses text).foldl Clause.apply Limits.none
  if limits.isEmpty then .none else some limits

end GraphCalc
