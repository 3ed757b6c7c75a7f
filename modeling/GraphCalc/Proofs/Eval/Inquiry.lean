import GraphCalc.Proofs.Eval.Memory

/-! # Inquiries on engines

An inquiry asks one question after the other. On an engine it has the result that it has if each question
is answered with all bodies at hand, unless nesting cuts one of the answers off. Main notions and
statements:

* `Inquiry.answered`: the result of an inquiry whose questions are answered by a function;
* `Engine.completes`: no answer to an inquiry is cut off on an engine;
* `Engine.run_bind`, `Engine.completes_bind`, `Inquiry.answered_bind`: inquiries one after the other;
* `Engine.Coherent.run`: the result of an inquiry, and the engine after it;
* `Engine.Coherent.run_warm`: an engine that remembers more completes what one that remembers less
  does, with the same result;
* `Engine.Request`, `Engine.after`: sequences of requests to an engine;
* `Engine.coherent_after`: every engine that requests lead to agrees with the last table;
* `Engine.answer_of_manages`: its replies are those of a fresh engine that completes them.
-/

namespace GraphCalc
set_option autoImplicit false

/-! ## Results -/

namespace Inquiry
variable {α β : Type}

theorem bind_answer (inquiry : Inquiry α) : inquiry.bind answer = inquiry := by
  induction inquiry with
  | answer a => rfl
  | ask question next ih => rw [Inquiry.bind, funext ih]

theorem bind_assoc {γ : Type} (inquiry : Inquiry α) (f : α → Inquiry β) (g : β → Inquiry γ) :
    (inquiry.bind f).bind g = inquiry.bind fun a => (f a).bind g := by
  induction inquiry with
  | answer a => rfl
  | ask question next ih =>
    rw [Inquiry.bind, Inquiry.bind, Inquiry.bind]
    exact congrArg (ask question) (funext ih)

instance : LawfulMonad Inquiry :=
  LawfulMonad.mk' Inquiry bind_answer (fun _ _ => rfl) bind_assoc

/-- The result if a function answers the questions. -/
def answered (reply : Question → Except EvalError Float) : Inquiry α → α
  | answer a => a
  | ask question next => (next (reply question)).answered reply

variable {reply : Question → Except EvalError Float}

@[simp] theorem answered_pure (a : α) : (pure a : Inquiry α).answered reply = a := rfl

@[simp] theorem answered_bind (inquiry : Inquiry α) (f : α → Inquiry β) :
    (inquiry >>= f).answered reply = (f (inquiry.answered reply)).answered reply := by
  induction inquiry with
  | answer a => rfl
  | ask question next ih => exact ih _

theorem answered_valueAt (source : String) (x : Float) : (valueAt source x).answered reply =
    orUndefined (reply (.text source [(integrationVariable, x)])) := rfl

end Inquiry

namespace Engine
variable {α β : Type} {settings : Settings} {functions : FunctionTable} {engine cold warm : Engine}

/-- Nesting cuts no answer to an inquiry off. -/
def completes : Inquiry α → Engine → Bool
  | .answer _, _ => true
  | .ask question next, engine =>
    let (outcome, after) := engine.reply question
    !engine.cutsOff question && after.completes (next outcome)

@[simp] theorem run_pure (a : α) (engine : Engine) : engine.run (pure a) = (a, engine) := rfl

@[simp] theorem run_bind (inquiry : Inquiry α) (f : α → Inquiry β) (engine : Engine) :
    engine.run (inquiry >>= f) = (engine.run inquiry).2.run (f (engine.run inquiry).1) := by
  induction inquiry generalizing engine with
  | answer a => rfl
  | ask question next ih => exact ih _ _

@[simp] theorem run_map (inquiry : Inquiry α) (f : α → β) (engine : Engine) :
    engine.run (f <$> inquiry) = (f (engine.run inquiry).1, (engine.run inquiry).2) := by
  rw [map_eq_pure_bind, run_bind, run_pure]

theorem run_valueAt (source : String) (x : Float) (engine : Engine) :
    (engine.run (Inquiry.valueAt source x)).1 =
      Inquiry.orUndefined (engine.reply (.text source [(integrationVariable, x)])).1 := rfl

@[simp] theorem completes_pure (a : α) (engine : Engine) : engine.completes (pure a) = true := rfl

@[simp] theorem completes_bind (inquiry : Inquiry α) (f : α → Inquiry β) (engine : Engine) :
    engine.completes (inquiry >>= f) =
      (engine.completes inquiry && (engine.run inquiry).2.completes (f (engine.run inquiry).1)) := by
  induction inquiry generalizing engine with
  | answer a => rfl
  | ask question next ih =>
    show (!engine.cutsOff question && (engine.reply question).2.completes (_ >>= f)) = _
    rw [ih, ← Bool.and_assoc]
    rfl

@[simp] theorem completes_map (inquiry : Inquiry α) (f : α → β) (engine : Engine) :
    engine.completes (f <$> inquiry) = engine.completes inquiry := by
  rw [map_eq_pure_bind, completes_bind, completes_pure, Bool.and_true]

/-! ## Engines with what they remember -/

/-- An inquiry leaves an engine that remembers what the table reads and all that it had, and its result
is that with all bodies at hand, if no answer is cut off. -/
theorem Coherent.run (h : engine.Coherent settings functions) (inquiry : Inquiry α) :
    (engine.run inquiry).2.Coherent settings functions ∧
      engine.bodies.Extends (engine.run inquiry).2.bodies ∧
      (engine.completes inquiry = true →
        (engine.run inquiry).1 = inquiry.answered (Question.outcome settings functions)) := by
  induction inquiry generalizing engine with
  | answer a => exact ⟨h, .refl _, fun _ => rfl⟩
  | ask question next ih =>
    obtain ⟨hafter, hgrown, hanswer⟩ := h.reply question
    obtain ⟨hlast, hgrown', hresult⟩ := ih (engine.reply question).1 hafter
    refine ⟨hlast, hgrown.trans hgrown', fun hcompletes => ?_⟩
    rw [completes, Bool.and_eq_true, Bool.not_eq_true'] at hcompletes
    rw [Inquiry.answered, ← hanswer hcompletes.1]
    exact hresult hcompletes.2

/-- An inquiry that an engine completes is completed by every engine that remembers more, with the same
result. -/
theorem Coherent.run_warm (hcold : cold.Coherent settings functions)
    (hwarm : warm.Coherent settings functions) (hextends : cold.bodies.Extends warm.bodies)
    {inquiry : Inquiry α} (h : cold.completes inquiry = true) :
    warm.completes inquiry = true ∧ (warm.run inquiry).1 = (cold.run inquiry).1 := by
  have hcompletes : warm.completes inquiry = true := by
    induction inquiry generalizing cold warm with
    | answer a => rfl
    | ask question next ih =>
      rw [completes, Bool.and_eq_true, Bool.not_eq_true'] at h ⊢
      obtain ⟨huncut, hextends'⟩ := hcold.reply_warm hwarm hextends h.1
      obtain ⟨hcold', -, hanswer⟩ := hcold.reply question
      obtain ⟨hwarm', -, hanswer'⟩ := hwarm.reply question
      refine ⟨huncut, ?_⟩
      rw [hanswer' huncut, ← hanswer h.1]
      exact ih _ hcold' hwarm' hextends' h.2
  exact ⟨hcompletes, ((hwarm.run inquiry).2.2 hcompletes).trans ((hcold.run inquiry).2.2 h).symm⟩

theorem extends_fresh (settings : Settings) (functions : FunctionTable) (engine : Engine) :
    (fresh settings functions).bodies.Extends engine.bodies := by
  rintro key answer ⟨⟩

/-! ## Sequences of requests -/

/-- What an engine can be asked to do. -/
inductive Request where
  | setFunctions (functions : FunctionTable)
  | functions
  | compile (source : String)
  | evaluate (question : Question)
  | valueAt (source : String) (x : Float)

inductive Reply where
  | done
  | functions (functions : FunctionTable)
  | tree (tree : Except ParseError Expr)
  | value (value : Except EvalError Float)
  | number (value : Float)

def answer : Request → Engine → Reply × Engine
  | .setFunctions functions, engine => (.done, engine.setFunctions functions)
  | .functions, engine => (.functions engine.functions, engine)
  | .compile source, engine =>
    let (tree, engine) := engine.compile source
    (.tree tree, engine)
  | .evaluate question, engine =>
    let (value, engine) := engine.reply question
    (.value value, engine)
  | .valueAt source x, engine =>
    let (value, engine) := engine.run (Inquiry.valueAt source x)
    (.number value, engine)

/-- Nesting cuts no evaluation off that a request asks for. -/
def manages : Request → Engine → Bool
  | .evaluate question, engine => !engine.cutsOff question
  | .valueAt source x, engine => engine.completes (Inquiry.valueAt source x)
  | _, _ => true

/-- The table that a request leaves in force. -/
def Request.table : Request → FunctionTable → FunctionTable
  | .setFunctions functions, _ => functions
  | _, functions => functions

/-- The engine after requests. -/
def after (requests : List Request) (engine : Engine) : Engine :=
  requests.foldl (fun engine request => (engine.answer request).2) engine

def lastTable (requests : List Request) (functions : FunctionTable) : FunctionTable :=
  requests.foldl (fun functions request => request.table functions) functions

theorem Coherent.answer (h : engine.Coherent settings functions) (request : Request) :
    (engine.answer request).2.Coherent settings (request.table functions) := by
  cases request with
  | setFunctions functions' => exact h.setFunctions functions'
  | functions => exact h
  | compile source => exact (h.compile source).2.1
  | evaluate question => exact (h.reply question).1
  | valueAt source x => exact (h.run (Inquiry.valueAt source x)).1

theorem answer_evaluate (question : Question) (engine : Engine) :
    (engine.answer (.evaluate question)).1 = .value (engine.reply question).1 := rfl

theorem after_evaluate (question : Question) (engine : Engine) :
    engine.after [.evaluate question] = (engine.reply question).2 := rfl

theorem coherent_after (h : engine.Coherent settings functions) (requests : List Request) :
    (engine.after requests).Coherent settings (lastTable requests functions) := by
  induction requests generalizing engine functions with
  | nil => exact h
  | cons request requests ih => exact ih (h.answer request)

/-- A request is answered on every engine as on one that remembers less, if that manages it. -/
theorem answer_of_manages (hcold : cold.Coherent settings functions)
    (hwarm : warm.Coherent settings functions) (hextends : cold.bodies.Extends warm.bodies)
    {request : Request} (h : cold.manages request = true) :
    (warm.answer request).1 = (cold.answer request).1 := by
  cases request with
  | setFunctions functions' => rfl
  | functions => exact congrArg Reply.functions (hwarm.functions_eq.trans hcold.functions_eq.symm)
  | compile source =>
    exact congrArg Reply.tree ((hwarm.compile source).1.trans (hcold.compile source).1.symm)
  | evaluate question =>
    rw [manages, Bool.not_eq_true'] at h
    exact congrArg Reply.value (hcold.reply_eq hwarm hextends h)
  | valueAt source x => exact congrArg Reply.number (hcold.run_warm hwarm hextends h).2

end Engine
end GraphCalc
