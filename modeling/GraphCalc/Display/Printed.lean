/-! # Printed things

What a command prints, before it is laid out: a line of marked-up text, a tree of labels, or a
table. Marked-up text holds styles in square brackets.
-/

namespace GraphCalc
set_option autoImplicit false

/-- A tree of labels. -/
inductive Branch where
  | node (label : String) (children : List Branch)
  deriving Repr, Inhabited

mutual

/-- The number of labels on the longest way down. -/
def Branch.levels : Branch → Nat
  | .node _ children => levelsAll children + 1

def Branch.levelsAll : List Branch → Nat
  | [] => 0
  | b :: bs => max b.levels (levelsAll bs)

end

/-- The side on which cells are aligned. -/
inductive Alignment where
  | left
  | right
  deriving DecidableEq, Repr

/-- A column of a table with its cells from top to bottom. -/
structure Column where
  header : String
  alignment : Alignment
  style : String
  minWidth : Option Nat
  cells : List String
  deriving DecidableEq, Repr

/-- A table. -/
structure Table where
  title : String
  columns : List Column
  deriving DecidableEq, Repr

/-- Something printed. -/
inductive Printed where
  | markup (text : String)
  | tree (branch : Branch)
  | table (table : Table)
  deriving Repr

def Column.left (header style : String) (cells : List String) : Column :=
  ⟨header, .left, style, none, cells⟩

def Column.right (header style : String) (cells : List String) : Column :=
  ⟨header, .right, style, none, cells⟩

def Column.atLeast (width : Nat) (c : Column) : Column := { c with minWidth := some width }

/-- A text in a style. -/
def styledText (style text : String) : String := "[" ++ style ++ "]" ++ text ++ "[/" ++ style ++ "]"

end GraphCalc
