import GraphCalc.Display.Printed

/-! # Plain layout

Printed things as lines of plain text, for a terminal that knows no styles. Main notions:

* `withoutStyles`: marked-up text without its style marks;
* `Printed.layout`: the lines of a printed thing.
-/

namespace GraphCalc
set_option autoImplicit false

/-! ## Styles -/

def styleNames : List String := ["red", "yellow", "green", "cyan", "magenta", "bold", "dim"]

/-- The marks that begin and end a style. -/
def styleMarks : List (List Char) :=
  styleNames.flatMap fun name => [("[" ++ name ++ "]").toList, ("[/" ++ name ++ "]").toList]

/-- A text without style marks. `skip` counts the characters of a mark that are still ahead. -/
def dropMarks (skip : Nat) : List Char → List Char
  | [] => []
  | c :: rest =>
    match skip with
    | skip + 1 => dropMarks skip rest
    | 0 =>
      match styleMarks.find? fun mark => mark.isPrefixOf (c :: rest) with
      | some mark => dropMarks (mark.length - 1) rest
      | none => c :: dropMarks 0 rest

def withoutStyles (text : String) : String := String.ofList (dropMarks 0 text.toList)

/-! ## Trees and tables -/

mutual

/-- The lines of a tree, each level further to the right. -/
def Branch.layout (indent : String) : Branch → List String
  | .node label children => (indent ++ withoutStyles label) :: layoutAll (indent ++ "  ") children

def Branch.layoutAll (indent : String) : List Branch → List String
  | [] => []
  | b :: bs => b.layout indent ++ layoutAll indent bs

end

def Column.pad (c : Column) (width : Nat) (cell : String) : String :=
  let blanks := String.ofList (List.replicate (width - cell.length) ' ')
  match c.alignment with
  | .left => cell ++ blanks
  | .right => blanks ++ cell

/-- The cells of a column, header first, filled up to one width. -/
def Column.padded (c : Column) : List String :=
  let cells := (c.header :: c.cells).map withoutStyles
  let width := (cells.map String.length).foldl max (c.minWidth.getD 0)
  cells.map (c.pad width)

def Table.layout (t : Table) : List String :=
  let columns := t.columns.map Column.padded
  let height := (columns.map List.length).foldl max 0
  t.title :: (List.range height).map fun i =>
    "  ".intercalate (columns.map fun cells => cells.getD i "")

def Printed.layout : Printed → List String
  | .markup text => [withoutStyles text]
  | .tree b => b.layout ""
  | .table t => t.layout

end GraphCalc
