import GraphCalc.Eval.Definition
import GraphCalc.Eval.Error

/-! # Values of expressions

The value of a tree under bindings of its variables. Recursion is on the tree; a call of a user
function goes on in the function's body with one call fewer left, so evaluation ends whatever the
definitions say. The body is asked for when its call is reached, with the room left there; who evaluates
says how it is got, so a value is a computation in any monad that can throw faults. Main notions:

* `Bindings`: the variables in scope, the innermost first;
* `Calculus`: the functions and the count of parts that a value depends on;
* `Room`: how many nested steps are left, if that is limited at all;
* `Expr.value`: the value with given room and a given way to enter user functions;
* `Calculus.enter?`: entering a user function with a number of calls left, given a way to get bodies.

A user function sees the bindings of its caller besides its parameter. An integral binds its
variable anew for each sample; where its integrand divides by zero the integral is undefined, while
every other fault of the integrand is a fault of the integral.
-/

namespace GraphCalc
set_option autoImplicit false

/-! ## What a value depends on -/

/-- Variables with their values; of two entries for a name the first counts. -/
abbrev Bindings := List (String × Float)

/-- The functions in scope, and how many parts an integral is cut into. -/
structure Calculus where
  functions : FunctionTable
  simpsonIntervals : Int

/-- How the body of a user function is entered: with the room left, the bindings at the call, and
the argument. -/
abbrev Entry (m : Type → Type) := Definition → Room → Bindings → Float → m Float

variable {m : Type → Type} [Monad m] [MonadExceptOf EvalError m]

namespace Room

/-- The room left for a nested step. -/
@[specialize] def inside : Room → m Room
  | none => return none
  | some 0 => throw .tooDeep
  | some (n + 1) => return some n

/-- The room left for reading a text: the reader takes ten steps before it reads the first token. -/
def forReading : Room → Room
  | none => none
  | some n => some (n - 10)

/-- The room in which evaluation starts. -/
def usual : Room := some 980

end Room

/-! ## Operators and variables -/

/-- The operand under a sign. A sign that no text has leaves it as it is. -/
def Sign.apply : Sign → Float → Float
  | .minus, v => -v
  | _, v => v

/-- The result of an operator. The divisor of a division or remainder must not be zero. -/
@[specialize] def Operator.apply (operator : Operator) (a b : Float) : m Float :=
  match operator with
  | .add => return a + b
  | .subtract => return a - b
  | .multiply => return a * b
  | .divide => if b == 0.0 then throw .divisionByZero else return a / b
  | .modulo => if b == 0.0 then throw .divisionByZero else return Binary64.remainder a b
  | .power => return a.pow b
  | .other symbol => throw (.unknownOperator symbol)

/-- The value of a variable: its binding, or else the constant of that name. -/
@[specialize] def Bindings.valueOf (bindings : Bindings) (name : String) : m Float :=
  match bindings.lookup name with
  | some v => return v
  | none => match constants.lookup name with
    | some v => return v
    | none => throw (.unknownVariable name)

/-- A sample of an integrand: division by zero and values that are not finite leave it undefined. -/
@[specialize] def sampleOf (value : m Float) : m (Option Float) :=
  tryCatch (do
    let y ← value
    return if y.isFinite then some y else none) fun
    | .divisionByZero => return none
    | e => throw e

/-! ## Trees -/

namespace Expr
variable (c : Calculus) (enter? : Option (Entry m))

mutual

/-- The value of a tree. `enter?` enters user functions; it is `none` if no call is left. -/
@[specialize] def value (room : Room) (bindings : Bindings) (e : Expr) : m Float := do
  let room ← room.inside
  match e with
  | .number v => return v
  | .var name => bindings.valueOf name
  | .signed sign operand => return sign.apply (← value room bindings operand)
  | .binary operator left right =>
    let a ← value room bindings left
    let b ← value room bindings right
    operator.apply a b
  | .call name arguments =>
    let room ← room.inside
    if name = integralName ∧ ¬ c.functions.defines name then
      match arguments with
      | [integrand, lower, upper] =>
        let room ← room.inside
        let a ← value room bindings lower
        let b ← value room bindings upper
        let area ← Quadrature.integral EvalError.grid c.simpsonIntervals (fun x => do
          let room ← room.inside
          sampleOf (value room ((integrationVariable, x) :: bindings) integrand)) a b
        return area.getD Binary64.nan
      | _ => throw (.argumentCount name 3 arguments.length)
    else
      match c.functions.find? name with
      | some definition =>
        match arguments with
        | [argument] =>
          match enter? with
          | none => throw (.callDepth name)
          | some enter =>
            let x ← value room bindings argument
            enter definition room bindings x
        | _ => throw (.argumentCount name 1 arguments.length)
      | none =>
        match builtin? name with
        | none => throw (.unknownFunction name)
        | some builtin =>
          if arguments.length = builtin.arity then
            return builtin.apply (← values room bindings arguments)
          else throw (.argumentCount name builtin.arity arguments.length)

/-- The values of several trees, from left to right. -/
@[specialize] def values (room : Room) (bindings : Bindings) (es : List Expr) : m (List Float) :=
  match es with
  | [] => return []
  | e :: es => do
    let v ← value room bindings e
    return v :: (← values room bindings es)

end
end Expr

/-! ## Calls -/

/-- How user functions are entered when `calls` nested calls are left. `fetch` gets the body of a
function, with the room left at the call. -/
@[specialize] def Calculus.enter? (c : Calculus) (fetch : Definition → Room → m Expr) :
    Nat → Option (Entry m)
  | 0 => none
  | calls + 1 => some fun definition room bindings x => do
    let body ← fetch definition room
    body.value c (c.enter? fetch calls) room ((definition.parameter, x) :: bindings)

end GraphCalc
