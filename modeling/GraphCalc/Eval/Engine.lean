import GraphCalc.Eval.Memo
import GraphCalc.Eval.Value
import GraphCalc.Settings

/-! # Engines

An engine evaluates texts under a table of user functions. It remembers the trees of the texts it
has read and of the bodies it has entered; replacing the table makes it forget them. A body is read when
a call of its function is reached, in the room that is left there, and it is remembered only if it could
be read. Main notions:

* `Engine`: settings, table and the two memo tables;
* `Engine.compile`: the tree of a text, read unless it is remembered;
* `Engine.fetch`: the body of a user function, remembered or read on the way;
* `Engine.evaluate`, `Engine.evaluateTree`: the value of a text, or of a tree that no text was read for.

Each operation returns its answer together with the engine after it.
-/

namespace GraphCalc
set_option autoImplicit false

/-- Settings, user functions, and the trees of texts and bodies read so far. -/
structure Engine where
  settings : Settings
  functions : FunctionTable
  texts : Memo Expr
  bodies : Memo Expr

/-- A computation that remembers bodies and may throw a fault; what it has read by then stays
remembered. -/
abbrev Evaluation (α : Type) := ExceptT EvalError (StateM (Memo Expr)) α

namespace Engine

/-- The number of texts whose trees are remembered. -/
def maxTexts : Nat := 1024

/-- An engine that has read nothing. -/
def fresh (settings : Settings) (functions : FunctionTable) : Engine :=
  ⟨settings, functions, Memo.empty, Memo.empty⟩

def setFunctions (functions : FunctionTable) (engine : Engine) : Engine :=
  fresh engine.settings functions

/-! ## Reading -/

def compile (source : String) (engine : Engine) : Except ParseError Expr × Engine :=
  let (tree, texts) := engine.texts.attempt (some maxTexts) engine.functions.read source
  (tree, { engine with texts := texts })

/-- The body of a user function, as it is remembered, or else read in the room that is left. -/
def fetch (functions : FunctionTable) (d : Definition) (room : Room) : Evaluation Expr := do
  match (← get).find? d.name with
  | some body => return body
  | none =>
    match functions.readWithin room.forReading d.body with
    | .ok body =>
      modify fun bodies => bodies.keep none d.name body
      return body
    | .error e => throw (.unreadable e)

/-! ## Values -/

/-- What values depend on. -/
def calculus (engine : Engine) : Calculus where
  functions := engine.functions
  simpsonIntervals := engine.settings.simpsonIntervals

/-- The evaluation of a tree in given room. -/
def evaluation (engine : Engine) (room : Room) (bindings : Bindings) (e : Expr) : Evaluation Float :=
  e.value engine.calculus
    (engine.calculus.enter? (fetch engine.functions) engine.settings.maxCallDepth.toNat) room bindings

def evaluateWithin (room : Room) (e : Expr) (bindings : Bindings) (engine : Engine) :
    Except EvalError Float × Engine :=
  let (outcome, bodies) := (engine.evaluation room bindings e).run.run engine.bodies
  (outcome, { engine with bodies := bodies })

def evaluateTree (e : Expr) (bindings : Bindings) (engine : Engine) :
    Except EvalError Float × Engine :=
  engine.evaluateWithin Room.usual e bindings

def evaluate (source : String) (bindings : Bindings) (engine : Engine) :
    Except EvalError Float × Engine :=
  match engine.compile source with
  | (.ok e, engine) => engine.evaluateTree e bindings
  | (.error e, engine) => (.error (.unreadable e), engine)

end Engine
end GraphCalc
