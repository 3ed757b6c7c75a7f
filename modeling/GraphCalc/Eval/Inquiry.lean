import GraphCalc.Eval.Engine

/-! # Inquiries

A search asks for one value after the other, and each question may depend on the answers before it. As an
engine remembers what it reads, the order of the questions is part of the search. Main notions:

* `Question`: the value of a text or of a tree;
* `Inquiry`: what is asked, and the result that is drawn from the answers;
* `Inquiry.valueAt`: the value of a text at one place, with every fault turned into the undefined value;
* `Engine.run`: the result of an inquiry that an engine answers, and the engine after the last answer.
-/

namespace GraphCalc
set_option autoImplicit false

/-- What an engine can be asked for. -/
inductive Question where
  | text (source : String) (bindings : Bindings)
  | tree (e : Expr) (bindings : Bindings)

/-- A result that is found by asking. -/
inductive Inquiry (α : Type) where
  | answer (a : α)
  | ask (question : Question) (next : Except EvalError Float → Inquiry α)

namespace Inquiry

def bind {α β : Type} (f : α → Inquiry β) : Inquiry α → Inquiry β
  | answer a => f a
  | ask question next => ask question fun outcome => (next outcome).bind f

instance : Monad Inquiry where
  pure := answer
  bind inquiry f := inquiry.bind f

def outcome (question : Question) : Inquiry (Except EvalError Float) := ask question answer

/-- A value, or the undefined value for any fault. -/
def orUndefined (outcome : Except EvalError Float) : Float :=
  match outcome with
  | .ok v => v
  | .error _ => Binary64.nan

/-- The value of a text at one place, undefined where it has a fault. -/
def valueAt (source : String) (x : Float) : Inquiry Float :=
  ask (.text source [(integrationVariable, x)]) fun outcome => answer (orUndefined outcome)

end Inquiry

namespace Engine

def reply : Question → Engine → Except EvalError Float × Engine
  | .text source bindings, engine => engine.evaluate source bindings
  | .tree e bindings, engine => engine.evaluateTree e bindings

def run {α : Type} : Inquiry α → Engine → α × Engine
  | .answer a, engine => (a, engine)
  | .ask question next, engine =>
    let (outcome, engine) := engine.reply question
    engine.run (next outcome)

end Engine
end GraphCalc
