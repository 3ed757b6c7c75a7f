import GraphCalc.Proofs.Eval.Nesting
import GraphCalc.Proofs.Worksheet.SaveLoad

/-! # Worksheets answer from their lines

A worksheet remembers the lines it has classified, and its engine remembers trees. After any
operations it answers as a worksheet newly made of its lines, unless nesting cuts off what the new one is
asked: a worksheet that remembers a body need not read it where there is little room left. Main notions
and statements:

* `Worksheet.Coherent`: the worksheets that have given lines and remember only what follows from them;
* `Worksheet.steady_classified`: how such worksheets classify their lines;
* `Worksheet.Request`, `Worksheet.after`: sequences of operations on a worksheet;
* `Worksheet.manages`: whether nesting cuts nothing off that an operation asks for;
* `Worksheet.Coherent.answer`: one operation, and `Worksheet.coherent_after`: all of them;
* `history_shows_in_nesting_only`: what a worksheet or an engine was asked before does not show otherwise.
-/

namespace GraphCalc
open GraphCalc.Text
set_option autoImplicit false

/-! ## Steady answers -/

section Steady
variable {σ α : Type} {kind : σ → Prop} {question : σ → α × σ} {answer : α}

/-- A question has one answer on all states of a kind, and leaves a state of that kind. -/
def Steady (kind : σ → Prop) (question : σ → α × σ) (answer : α) : Prop :=
  ∀ s, kind s → (question s).1 = answer ∧ kind (question s).2

end Steady

/-- A table that keeps what is computed for a key gives that, and goes on keeping it. -/
theorem Memo.Sound.consult {β : Type} {compute : String → β} {memo : Memo β}
    (h : memo.Sound fun key answer => compute key = answer) (bound : Option ℕ) (key : String) :
    memo.consult bound compute key = (compute key, memo.keep bound key (compute key)) := by
  unfold Memo.consult
  cases hfind : memo.find? key with
  | none => rfl
  | some answer => rw [h key answer hfind]

namespace Worksheet

/-! ## What a worksheet remembers -/

/-- A worksheet has the given lines, which are tidy; every line it remembers is classified as it
reads, and its engine has the settings and the definitions among the lines. -/
structure Coherent (settings : Settings) (lines : List String) (w : Worksheet) : Prop where
  lines_eq : w.lines = lines
  tidy_eq : tidy lines = lines
  known : w.known.Sound fun source line => Line.read source = line
  engine : w.engine.Coherent settings (definitionsOf lines)

variable {settings : Settings} {lines : List String} {w cold warm : Worksheet}

theorem coherent_ofLines (settings : Settings) (lines : List String) :
    (ofLines settings lines).Coherent settings (tidy lines) where
  lines_eq := rfl
  tidy_eq := tidy_idem lines
  known := Memo.sound_empty
  engine := Engine.coherent_fresh settings _

theorem Coherent.setLines (h : w.Coherent settings lines) (lines' : List String) :
    (w.setLines lines').Coherent settings (tidy lines') where
  lines_eq := rfl
  tidy_eq := tidy_idem lines'
  known := Memo.sound_empty
  engine := h.engine.setFunctions _

theorem Coherent.add (h : w.Coherent settings lines) (line : String) :
    (w.add line).Coherent settings (tidy (lines ++ [line])) := by
  rw [Worksheet.add, h.lines_eq]
  exact h.setLines _

theorem Coherent.definitions_eq (h : w.Coherent settings lines) :
    w.definitions = definitionsOf lines := by
  rw [definitions, h.lines_eq]

theorem Coherent.ask {α : Type} (h : w.Coherent settings lines) (inquiry : Inquiry α) :
    (w.ask (Engine.run inquiry)).2.Coherent settings lines :=
  { h with engine := (h.engine.run inquiry).1 }

/-! ## Classified lines -/

theorem steady_classify (source : String) :
    Steady (Coherent settings lines) (classify source) (Line.read source) := by
  intro w h
  rw [classify, h.known.consult]
  exact ⟨rfl, { h with known := h.known.keep none rfl }⟩

theorem steady_classifyAll (sources : List String) :
    Steady (Coherent settings lines) (classifyAll sources) (sources.map Line.read) := by
  induction sources with
  | nil => exact fun w h => ⟨rfl, h⟩
  | cons source sources ih =>
    intro w h
    obtain ⟨hline, h₁⟩ := steady_classify source w h
    obtain ⟨hlines, h₂⟩ := ih _ h₁
    exact ⟨congrArg₂ List.cons hline hlines, h₂⟩

theorem steady_classified :
    Steady (Coherent settings lines) classified (lines.map Line.read) := by
  intro w h
  rw [classified, h.lines_eq]
  exact steady_classifyAll lines w h

theorem engine_classifyAll (sources : List String) (w : Worksheet) :
    (w.classifyAll sources).2.engine = w.engine := by
  induction sources generalizing w with
  | nil => rfl
  | cons source sources ih => exact ih _

/-! ## Sequences of operations -/

/-- What a worksheet can be asked to do. The last one lets its engine evaluate a text or a tree with all
faults reported. -/
inductive Request where
  | setLines (lines : List String)
  | add (line : String)
  | lines
  | definitions
  | classify (source : String)
  | classified
  | valueAt (source : String) (x : Float)
  | integrals
  | keyPoints (view : Viewport)
  | evaluate (question : Question)

inductive Reply where
  | done
  | lines (lines : List String)
  | definitions (functions : FunctionTable)
  | classified (lines : List Line)
  | number (value : Float)
  | value (value : Except EvalError Float)
  | integrals (values : List (IntegralCall × Float))
  | points (points : List Point)

def answer : Request → Worksheet → Reply × Worksheet
  | .setLines lines, w => (.done, w.setLines lines)
  | .add line, w => (.done, w.add line)
  | .lines, w => (.lines w.lines, w)
  | .definitions, w => (.definitions w.definitions, w)
  | .classify source, w =>
    let (line, w) := w.classify source
    (.classified [line], w)
  | .classified, w =>
    let (lines, w) := w.classified
    (.classified lines, w)
  | .valueAt source x, w =>
    let (value, w) := w.valueAt source x
    (.number value, w)
  | .integrals, w =>
    let (values, w) := w.integrals
    (.integrals values, w)
  | .keyPoints view, w =>
    let (points, w) := w.keyPoints view
    (.points points, w)
  | .evaluate question, w =>
    let (value, w) := w.ask (Engine.reply question)
    (.value value, w)

/-- Nesting cuts no evaluation off that an operation asks for. -/
def manages : Request → Worksheet → Bool
  | .valueAt source x, w =>
    let (line, w) := w.classify source
    w.engine.completes (line.graph.valueAt x)
  | .integrals, w =>
    let (lines, w) := w.classified
    w.engine.completes (integralValues lines)
  | .keyPoints view, w =>
    let (lines, w) := w.classified
    w.engine.completes (GraphCalc.keyPoints w.engine.settings view (lines.map Line.graph))
  | .evaluate question, w => !w.engine.cutsOff question
  | _, _ => true

/-- The lines that an operation leaves. -/
def Request.linesAfter : Request → List String → List String
  | .setLines lines, _ => tidy lines
  | .add line, lines => tidy (lines ++ [line])
  | _, lines => lines

/-- The worksheet after operations. -/
def after (requests : List Request) (w : Worksheet) : Worksheet :=
  requests.foldl (fun w request => (w.answer request).2) w

def lastLines (requests : List Request) (lines : List String) : List String :=
  requests.foldl (fun lines request => request.linesAfter lines) lines

theorem Coherent.answer (h : w.Coherent settings lines) (request : Request) :
    (w.answer request).2.Coherent settings (request.linesAfter lines) := by
  cases request with
  | setLines lines' => exact h.setLines lines'
  | add line => exact h.add line
  | lines => exact h
  | definitions => exact h
  | classify source => exact (steady_classify source w h).2
  | classified => exact (steady_classified w h).2
  | valueAt source x => exact (steady_classify source w h).2.ask _
  | integrals => exact (steady_classified w h).2.ask _
  | keyPoints view => exact (steady_classified w h).2.ask _
  | evaluate question => exact { h with engine := (h.engine.reply question).1 }

theorem coherent_after (h : w.Coherent settings lines) (requests : List Request) :
    (w.after requests).Coherent settings (lastLines requests lines) := by
  induction requests generalizing w lines with
  | nil => exact h
  | cons request requests ih => exact ih (h.answer request)

/-! ## Answers -/

/-- A line's height is what its graph finds on the engine. -/
theorem Coherent.valueAt_eq (h : w.Coherent settings lines) (source : String) (x : Float) :
    (w.valueAt source x).1 = (w.engine.run ((Line.read source).graph.valueAt x)).1 := by
  rw [← (steady_classify source w h).1]
  rfl

theorem Coherent.manages_valueAt (h : w.Coherent settings lines) (source : String) (x : Float) :
    w.manages (.valueAt source x) = w.engine.completes ((Line.read source).graph.valueAt x) := by
  rw [← (steady_classify source w h).1]
  rfl

theorem Coherent.integrals_eq (h : w.Coherent settings lines) :
    w.integrals.1 = (w.engine.run (integralValues (lines.map Line.read))).1 := by
  rw [← (steady_classified w h).1, ← engine_classifyAll w.lines w]
  rfl

theorem Coherent.keyPoints_eq (h : w.Coherent settings lines) (view : Viewport) :
    (w.keyPoints view).1 = (w.engine.run
      (GraphCalc.keyPoints settings view ((lines.map Line.read).map Line.graph))).1 := by
  rw [← (steady_classified w h).1, ← h.engine.settings_eq, ← engine_classifyAll w.lines w]
  rfl

/-- An operation is answered by every worksheet as by one with the same lines whose engine remembers
less, if that manages it. -/
theorem answer_of_manages (hcold : cold.Coherent settings lines) (hwarm : warm.Coherent settings lines)
    (hextends : cold.engine.bodies.Extends warm.engine.bodies) {request : Request}
    (h : cold.manages request = true) : (warm.answer request).1 = (cold.answer request).1 := by
  cases request with
  | setLines lines' => rfl
  | add line => rfl
  | lines => exact congrArg Reply.lines (hwarm.lines_eq.trans hcold.lines_eq.symm)
  | definitions =>
    exact congrArg Reply.definitions (hwarm.definitions_eq.trans hcold.definitions_eq.symm)
  | classify source =>
    have hline := (steady_classify source warm hwarm).1.trans (steady_classify source cold hcold).1.symm
    exact congrArg (fun line => Reply.classified [line]) hline
  | classified =>
    exact congrArg Reply.classified
      ((steady_classified warm hwarm).1.trans (steady_classified cold hcold).1.symm)
  | valueAt source x =>
    rw [hcold.manages_valueAt] at h
    have hsame : (warm.valueAt source x).1 = (cold.valueAt source x).1 := by
      rw [hwarm.valueAt_eq, hcold.valueAt_eq]
      exact (hcold.engine.run_warm hwarm.engine hextends h).2
    exact congrArg Reply.number hsame
  | integrals =>
    have hcompletes : cold.engine.completes (integralValues (lines.map Line.read)) = true := by
      rw [← (steady_classified cold hcold).1, ← engine_classifyAll cold.lines cold]
      exact h
    have hsame : warm.integrals.1 = cold.integrals.1 := by
      rw [hwarm.integrals_eq, hcold.integrals_eq]
      exact (hcold.engine.run_warm hwarm.engine hextends hcompletes).2
    exact congrArg Reply.integrals hsame
  | keyPoints view =>
    have hcompletes : cold.engine.completes
        (GraphCalc.keyPoints settings view ((lines.map Line.read).map Line.graph)) = true := by
      rw [← (steady_classified cold hcold).1, ← hcold.engine.settings_eq,
        ← engine_classifyAll cold.lines cold]
      exact h
    have hsame : (warm.keyPoints view).1 = (cold.keyPoints view).1 := by
      rw [hwarm.keyPoints_eq, hcold.keyPoints_eq]
      exact (hcold.engine.run_warm hwarm.engine hextends hcompletes).2
    exact congrArg Reply.points hsame
  | evaluate question =>
    rw [manages, Bool.not_eq_true'] at h
    exact congrArg Reply.value (hcold.engine.reply_eq hwarm.engine hextends h)

end Worksheet

/-! ## History -/

/-- After any operations a worksheet has the lines that were set last, its engine has exactly the
definitions among them, and every operation is answered as by a worksheet newly made of these lines,
unless nesting cuts off an evaluation that the new one is asked for. Likewise an engine answers every
request, after any others, as a fresh engine that has the table set last, unless nesting cuts off the
evaluation on that. -/
theorem history_shows_in_nesting_only :
    (∀ (settings : Settings) (lines : List String) (before : List Worksheet.Request),
      let w := (Worksheet.ofLines settings lines).after before
      let fresh := Worksheet.ofLines settings w.lines
      w.lines = Worksheet.lastLines before (Worksheet.tidy lines) ∧
      w.engine.functions = w.definitions ∧
      ∀ request, fresh.manages request = true → (w.answer request).1 = (fresh.answer request).1) ∧
    ∀ (settings : Settings) (functions : FunctionTable) (before : List Engine.Request)
      (request : Engine.Request),
      let fresh := Engine.fresh settings (Engine.lastTable before functions)
      fresh.manages request = true →
        (((Engine.fresh settings functions).after before).answer request).1 =
          (fresh.answer request).1 := by
  constructor
  · intro settings lines before w fresh
    have hw := Worksheet.coherent_after (Worksheet.coherent_ofLines settings lines) before
    refine ⟨hw.lines_eq, hw.engine.functions_eq.trans hw.definitions_eq.symm, fun request h => ?_⟩
    have hfresh := Worksheet.coherent_ofLines settings w.lines
    rw [hw.lines_eq, hw.tidy_eq, ← hw.lines_eq] at hfresh
    rw [← hw.lines_eq] at hw
    exact Worksheet.answer_of_manages hfresh hw (Engine.extends_fresh _ _ _) h
  · intro settings functions before request fresh h
    have hengine := Engine.coherent_after (Engine.coherent_fresh settings functions) before
    exact Engine.answer_of_manages (Engine.coherent_fresh settings _) hengine
      (Engine.extends_fresh _ _ _) h

/-- A call by itself, and behind 600 signs, which do not leave the room that the body takes. An engine
that has answered the first answers the second, and a fresh one does not. -/
theorem call_alone_is_remembered :
    let fresh := Engine.fresh Settings.default deepTable
    let alone : Engine.Request := .evaluate (.text (negatedCall 0) [(integrationVariable, 1.0)])
    let deep : Engine.Request := .evaluate (.text (negatedCall 600) [(integrationVariable, 1.0)])
    (∃ p, (fresh.answer deep).1 = .value (.error (.unreadable (.tooDeep p)))) ∧
      ((fresh.after [alone]).answer deep).1 = .value (.ok euler) ∧
      ((fresh.after [alone]).answer deep).1 ≠ (fresh.answer deep).1 := by
  intro fresh alone deep
  have hfind : deepTable.find? "f" = some (nestedConstant 120) := rfl
  have hcalls : 0 < Settings.default.maxCallDepth := by decide
  have hfresh : fresh.Coherent Settings.default deepTable := Engine.coherent_fresh _ _
  obtain ⟨p, hcold, -⟩ := hfresh.reply_negatedCall_of_deep hfind hcalls (k := 600) (by decide) 1.0 rfl
    (by decide)
  obtain ⟨-, hknown⟩ := hfresh.reply_negatedCall_of_read hfind hcalls (k := 0) (by decide) 1.0
    (.inr (by decide))
  obtain ⟨hwarm, -⟩ := (hfresh.reply _).1.reply_negatedCall_of_read hfind hcalls (k := 600) (by decide)
    1.0 (.inl hknown)
  have heven : Neg.neg^[600] euler = euler := iterate_neg_euler 300
  rw [Engine.after_evaluate, Engine.answer_evaluate, Engine.answer_evaluate, hcold, hwarm, heven]
  exact ⟨⟨p, rfl⟩, rfl, nofun⟩

end GraphCalc
