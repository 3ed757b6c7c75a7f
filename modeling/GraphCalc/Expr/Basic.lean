import GraphCalc.Number.Text

/-! # Expressions

An expression is a tree of numbers, variables, signs, binary operators and calls. Trees come from
texts, and may also be built by hand; a hand-built tree can hold an operator that no text has, which
is kept as `other`. Main notions:

* `Sign`, `Operator`, `Expr`: the tree;
* `Expr.source`: fully bracketed text, which reads back as the same tree when the tree came from a
  text;
* `Expr.variableNames`: the names of the variables, each once, in the order of their characters.
-/

namespace GraphCalc
set_option autoImplicit false

/-! ## Operators -/

/-- An operator with one operand. -/
inductive Sign where
  | plus
  | minus
  | other (symbol : String)
  deriving DecidableEq, Repr, Inhabited

/-- An operator with two operands. -/
inductive Operator where
  | add
  | subtract
  | multiply
  | divide
  | modulo
  | power
  | other (symbol : String)
  deriving DecidableEq, Repr, Inhabited

namespace Sign

def symbol : Sign → String
  | plus => "+"
  | minus => "-"
  | other s => s

def ofSymbol (s : String) : Sign :=
  if s = "+" then plus else if s = "-" then minus else other s

end Sign

namespace Operator

def symbol : Operator → String
  | add => "+"
  | subtract => "-"
  | multiply => "*"
  | divide => "/"
  | modulo => "%"
  | power => "^"
  | other s => s

/-- The operators of texts. -/
def known : List Operator := [add, subtract, multiply, divide, modulo, power]

def ofSymbol (s : String) : Operator := (known.find? (·.symbol == s)).getD (other s)

end Operator

/-! ## Trees -/

/-- An expression. -/
inductive Expr where
  | number (value : Float)
  | var (name : String)
  | signed (sign : Sign) (operand : Expr)
  | binary (operator : Operator) (left right : Expr)
  | call (name : String) (arguments : List Expr)
  deriving Repr, Inhabited

namespace Expr

/-! ## Equality of trees

Numbers are compared as doubles: the two zeros are equal, and an undefined value differs from
itself. -/

mutual
/-- Whether two trees have the same shape, names and numbers. -/
def same : Expr → Expr → Bool
  | number v, number w => v == w
  | var a, var b => a == b
  | signed s e, signed t f => s == t && same e f
  | binary o a b, binary p c d => o == p && same a c && same b d
  | call f as, call g bs => f == g && sameAll as bs
  | _, _ => false

/-- Whether two lists of trees are the same one by one. -/
def sameAll : List Expr → List Expr → Bool
  | [], [] => true
  | a :: as, b :: bs => same a b && sameAll as bs
  | _, _ => false
end

/-! ## Text of a tree -/

mutual
/-- The tree as text, with brackets around every operator. -/
def source : Expr → String
  | number v => writeFloat Style.full v
  | var name => name
  | signed sign operand => "(" ++ sign.symbol ++ operand.source ++ ")"
  | binary operator left right =>
    "(" ++ left.source ++ " " ++ operator.symbol ++ " " ++ right.source ++ ")"
  | call name arguments => name ++ "(" ++ ", ".intercalate (sources arguments) ++ ")"

def sources : List Expr → List String
  | [] => []
  | e :: es => e.source :: sources es
end

/-! ## Variables -/

mutual
def occurrences : Expr → List String
  | number _ => []
  | var name => [name]
  | signed _ operand => operand.occurrences
  | binary _ left right => left.occurrences ++ right.occurrences
  | call _ arguments => allOccurrences arguments

def allOccurrences : List Expr → List String
  | [] => []
  | e :: es => e.occurrences ++ allOccurrences es
end

/-- The names of the variables, each once, in order. -/
def variableNames (e : Expr) : List String := e.occurrences.eraseDups.mergeSort (· ≤ ·)

end Expr
end GraphCalc
