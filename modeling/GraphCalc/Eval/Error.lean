import GraphCalc.Expr.Parse
import GraphCalc.Eval.Quadrature

/-! # Faults of evaluation

`EvalError` lists the reasons why an expression has no value, and `EvalError.message` puts each into
words. A text that cannot be read is among them, for it may be the body of a called function.
-/

namespace GraphCalc
set_option autoImplicit false

/-- Why an expression has no value. -/
inductive EvalError where
  | unreadable (error : ParseError)
  | unknownVariable (name : String)
  | unknownFunction (name : String)
  | unknownOperator (symbol : String)
  | divisionByZero
  | argumentCount (name : String) (wanted given : Nat)
  | callDepth (name : String)
  | tooDeep
  | grid (error : Quadrature.GridError)
  deriving DecidableEq, Repr

def EvalError.message : EvalError → String
  | unreadable e => e.message
  | unknownVariable name => "Unknown variable: " ++ name
  | unknownFunction name => "Unknown function: " ++ name
  | unknownOperator symbol => "Unknown operator '" ++ symbol ++ "'"
  | divisionByZero => "Division by zero"
  | argumentCount name wanted given =>
    name ++ "() takes " ++ wanted.repr ++ (if wanted = 1 then " argument" else " arguments") ++
      ", got " ++ given.repr
  | callDepth name => "Call depth exceeded in " ++ name ++ "()"
  | tooDeep => tooDeepMessage
  | grid .noIntervals => "float division by zero"
  | grid .tooManyIntervals => "int too large to convert to float"

end GraphCalc
