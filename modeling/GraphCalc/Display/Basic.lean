import GraphCalc.Area.IntegralCall
import GraphCalc.Display.Printed
import GraphCalc.Expr.Parse
import GraphCalc.Line.Basic
import GraphCalc.Plot.Viewport

/-! # Reports

Each kind of answer as a printed thing: `Display.tokens`, `Display.tree`, `Display.descriptions`,
`Display.values`, `Display.points` and `Display.integrals`. Numbers are written by `displayFloat`,
and those that are not finite are dimmed where they are results.
-/

namespace GraphCalc.Display
set_option autoImplicit false

def result (v : Float) : String :=
  if v.isFinite then displayFloat v else styledText "dim" (displayFloat v)

/-- The mark of a cell with nothing to say. -/
def nothing : String := styledText "dim" "--"

/-! ## Tokens and trees -/

def kindName : Token.Kind → String
  | .number _ => "number"
  | .name => "identifier"
  | .operator => "operator"
  | .opening => "lparen"
  | .closing => "rparen"
  | .comma => "comma"

def tokens (ts : List Token) : Printed :=
  .table ⟨"Tokens", [
    .right "#" "dim" ((List.range ts.length).map Nat.repr),
    .left "Type" "cyan" (ts.map fun t => kindName t.kind),
    .left "Text" "green" (ts.map Token.text),
    .right "Pos" "" (ts.map fun t => t.position.repr)]⟩

mutual

def branch : Expr → Branch
  | .number v => .node (styledText "green" (displayFloat v)) []
  | .var name => .node (styledText "cyan" name) []
  | .signed sign operand => .node (styledText "bold" ("unary " ++ sign.symbol)) [branch operand]
  | .binary operator left right =>
    .node (styledText "bold" operator.symbol) [branch left, branch right]
  | .call name arguments => .node (styledText "magenta" (name ++ "()")) (branches arguments)

def branches : List Expr → List Branch
  | [] => []
  | e :: es => branch e :: branches es

end

def tree (e : Expr) : Printed := .tree (branch e)

/-- The most levels of a tree that are built. -/
def maxLevels : Nat := 960

/-- The tree of an expression, if it does not have too many levels. -/
def tree? (e : Expr) : Option Printed :=
  if (branch e).levels ≤ maxLevels then some (tree e) else none

/-! ## Lines -/

def shapeName : Line.Shape → String
  | .curve _ => "function"
  | .vertical _ => "vertical"

def evaluated : Line.Shape → String
  | .curve base => if base = "" then nothing else base
  | .vertical place => "x = " ++ displayFloat place

def defined (d : Definition) : String := d.name ++ "(" ++ d.parameter ++ ")"

def descriptions (lines : List Line) : Printed :=
  .table ⟨"Expressions", [
    (Column.left "Line" "green" (lines.map Line.source)).atLeast 12,
    .left "Kind" "cyan" (lines.map fun l => shapeName l.shape),
    (Column.left "Evaluates" "" (lines.map fun l => evaluated l.shape)).atLeast 10,
    .left "Constraint" "yellow" (lines.map fun l => (l.limits.map Limits.describe).getD nothing),
    .left "Defines" "magenta" (lines.map fun l => (l.definition.map defined).getD nothing)]⟩

/-! ## Values -/

/-- Adds a named column of values; a repeated name takes the new values in its first place. -/
def putColumn (name : String) (values : List Float) (columns : List (String × List Float)) :
    List (String × List Float) :=
  if columns.any (·.1 == name) then
    columns.map fun column => if column.1 == name then (name, values) else column
  else columns ++ [(name, values)]

def values (xs : List Float) (columns : List (String × List Float)) : Printed :=
  .table ⟨"Values", .right "x" "dim" (xs.map displayFloat) ::
    columns.map fun (name, ys) => .right name "" ((ys.take xs.length).map result)⟩

/-! ## Points and integrals -/

/-- Whether a point comes before another: by place, then by height. -/
def pointBefore (p q : Point) : Bool := if p.x == q.x then p.y < q.y else p.x < q.x

def sortPoints (points : List Point) : List Point := points.mergeSort fun p q => !pointBefore q p

def points (ps : List Point) : Printed :=
  if ps.isEmpty then .markup (styledText "yellow" "No intercepts or intersections in view.")
  else
    let sorted := sortPoints ps
    .table ⟨"Key points", [
      .right "#" "dim" ((List.range sorted.length).map fun i => (i + 1).repr),
      .right "x" "" (sorted.map fun p => displayFloat p.x),
      .right "y" "" (sorted.map fun p => displayFloat p.y)]⟩

def integrals (rows : List (IntegralCall × Float)) : Printed :=
  if rows.isEmpty then .markup (styledText "yellow" "No integrals found.")
  else
    .table ⟨"Integrals", [
      .left "Integrand" "green" (rows.map fun r => r.1.integrand),
      .right "From" "" (rows.map fun r => r.1.lower),
      .right "To" "" (rows.map fun r => r.1.upper),
      .right "Area" "bold" (rows.map fun r => result r.2)]⟩

end GraphCalc.Display
