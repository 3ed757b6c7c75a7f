import GraphCalc.Eval.Inquiry
import GraphCalc.Proofs.Eval.Remembered

/-! # What engines remember

An engine fills its memo tables as it is asked, and forgets them with the table of user functions. What
it remembers is what its table of functions says, so its answers are those of an engine that has all
bodies at hand, unless nesting cuts them off; and the more it remembers, the less nesting there is. Main
notions and statements:

* `Engine.Reachable`: the engines that questions lead to, from a fresh one on;
* `Engine.Coherent`: the engines whose memo tables agree with their table of user functions;
* `Question.outcome`: the answer to a question if no nesting is too deep;
* `Engine.cutsOff`: whether nesting cuts an answer off;
* `Engine.evaluation_settles`: how an evaluation on an engine ends;
* `Engine.Coherent.reply`: the answer to a question, and the engine after it;
* `Engine.Coherent.reply_warm`: the answer of an engine that remembers more.
-/

namespace GraphCalc
set_option autoImplicit false

/-- The room that bodies have at most. It is also the room of texts that are read by themselves. -/
abbrev Room.ofBodies : Room := Room.usual.forReading

theorem Room.readsIn_usual : Room.ReadsIn Room.ofBodies Room.usual := fun n hn => ⟨n, hn, le_rfl⟩

/-! ## Texts -/

namespace Memo
variable {ε β : Type} {compute : String → Except ε β} {memo : Memo β}

/-- A table of right answers gives what would be computed, and goes on to be one. -/
theorem Sound.attempt (h : memo.Sound fun key answer => compute key = .ok answer) (bound : Option ℕ)
    (key : String) :
    (memo.attempt bound compute key).1 = compute key ∧
      (memo.attempt bound compute key).2.Sound fun key answer => compute key = .ok answer := by
  have hattempt : memo.attempt bound compute key = match compute key with
      | .ok answer => (.ok answer, memo.keep bound key answer)
      | .error e => (.error e, memo) := by
    unfold Memo.attempt
    cases hfind : memo.find? key with
    | none => cases compute key <;> rfl
    | some answer => rw [h key answer hfind]
  rw [hattempt]
  cases hcompute : compute key with
  | ok answer => exact ⟨rfl, h.keep bound hcompute⟩
  | error e => exact ⟨rfl, h⟩

end Memo

/-! ## Engines -/

namespace Engine

/-- The engines that questions lead to, from a fresh one on. -/
inductive Reachable (settings : Settings) (functions : FunctionTable) : Engine → Prop where
  | fresh : Reachable settings functions (Engine.fresh settings functions)
  | compile {engine} (source : String) (h : Reachable settings functions engine) :
      Reachable settings functions (engine.compile source).2
  | reply {engine} (question : Question) (h : Reachable settings functions engine) :
      Reachable settings functions (engine.reply question).2

/-- The engine has the given settings and table, and every tree it remembers, be it for a text or for
a body, is what the table reads. -/
structure Coherent (settings : Settings) (functions : FunctionTable) (engine : Engine) : Prop where
  settings_eq : engine.settings = settings
  functions_eq : engine.functions = functions
  texts : engine.texts.Sound fun source e => functions.read source = .ok e
  bodies : engine.bodies.Faithful functions Room.ofBodies

/-- The outcome of a tree if no nesting is too deep, with bodies that are read in given room. -/
def outcome (settings : Settings) (functions : FunctionTable) (limit : Room) (bindings : Bindings)
    (e : Expr) : Except EvalError Float :=
  (fresh settings functions).calculus.outcome limit settings.maxCallDepth.toNat bindings e

/-- Nesting cuts the answer to a question off. A text that is itself nested too deeply has no answer to
be cut off. -/
def cutsOff : Question → Engine → Bool
  | .text source bindings, engine =>
    match engine.compile source with
    | (.ok e, engine) => isCutOff (engine.evaluateTree e bindings).1
    | (.error _, _) => false
  | .tree e bindings, engine => isCutOff (engine.evaluateTree e bindings).1

end Engine

/-- The answer to a question if no nesting in an evaluation is too deep. -/
def Question.outcome (settings : Settings) (functions : FunctionTable) :
    Question → Except EvalError Float
  | .text source bindings =>
    match functions.read source with
    | .ok e => Engine.outcome settings functions Room.ofBodies bindings e
    | .error e => .error (.unreadable e)
  | .tree e bindings => Engine.outcome settings functions Room.ofBodies bindings e

namespace Engine
variable {settings : Settings} {functions : FunctionTable} {engine cold warm : Engine}

theorem coherent_fresh (settings : Settings) (functions : FunctionTable) :
    (fresh settings functions).Coherent settings functions where
  settings_eq := rfl
  functions_eq := rfl
  texts := Memo.sound_empty
  bodies := Memo.sound_empty

theorem Coherent.setFunctions (h : engine.Coherent settings functions)
    (functions' : FunctionTable) : (engine.setFunctions functions').Coherent settings functions' := by
  rw [Engine.setFunctions, h.settings_eq]
  exact coherent_fresh settings functions'

theorem Coherent.compile (h : engine.Coherent settings functions) (source : String) :
    (engine.compile source).1 = functions.read source ∧
      (engine.compile source).2.Coherent settings functions ∧
      (engine.compile source).2.bodies = engine.bodies := by
  have hattempt := h.texts.attempt (some maxTexts) source
  rw [← h.functions_eq] at hattempt
  refine ⟨?_, ⟨h.settings_eq, h.functions_eq, ?_, h.bodies⟩, rfl⟩
  · rw [← h.functions_eq]
    exact hattempt.1
  · rw [← h.functions_eq]
    exact hattempt.2

/-! ### Evaluations -/

/-- An evaluation in any room leaves a memory that is right and has all that was there, and it ends as
with all bodies at hand, unless nesting cuts it off. -/
theorem evaluation_settles {limit : Room} (room : Room)
    (hbodies : engine.bodies.Faithful engine.functions limit) (hroom : Room.ReadsIn limit room)
    (e : Expr) (bindings : Bindings) :
    engine.bodies.Extends (engine.evaluateWithin room e bindings).2.bodies ∧
      (engine.evaluateWithin room e bindings).2.bodies.Faithful engine.functions limit ∧
      ((engine.evaluateWithin room e bindings).1 =
          outcome engine.settings engine.functions limit bindings e ∨
        room ≠ none ∧ isCutOff (engine.evaluateWithin room e bindings).1 = true) := by
  have henter := (Parallel.settling engine.functions limit (room ≠ none)).enter
    (c := engine.calculus) (.refl engine.functions) rfl fetches_settling
    engine.settings.maxCallDepth.toNat _ (.inl rfl)
  exact (Parallel.settling engine.functions limit (room ≠ none)).value (c := engine.calculus)
    (fun _ _ => rfl) rfl henter e (fun _ _ => trivial) ⟨rfl, hroom, id⟩ (fun _ _ => rfl)
    engine.bodies hbodies

/-- Where nesting does not cut an evaluation off, an engine that remembers more has the same outcome, and
goes on to remember more. -/
theorem evaluation_warm {limit room : Room} (hsettings : warm.settings = cold.settings)
    (hfunctions : warm.functions = cold.functions) (hcold : cold.bodies.Faithful cold.functions limit)
    (hwarm : warm.bodies.Faithful cold.functions limit) (hextends : cold.bodies.Extends warm.bodies)
    (hroom : Room.ReadsIn limit room) {e : Expr} {bindings : Bindings}
    (hcut : isCutOff (cold.evaluateWithin room e bindings).1 = false) :
    (warm.evaluateWithin room e bindings).1 = (cold.evaluateWithin room e bindings).1 ∧
      (cold.evaluateWithin room e bindings).2.bodies.Extends
        (warm.evaluateWithin room e bindings).2.bodies := by
  have hevaluation : warm.evaluation room bindings e = cold.evaluation room bindings e := by
    rw [evaluation, evaluation, calculus, calculus, hsettings, hfunctions]
  have henter := (Parallel.warming cold.functions limit).enter (c := cold.calculus)
    (.refl cold.functions) rfl fetches_warming cold.settings.maxCallDepth.toNat _ (.inl rfl)
  have hvalue := (Parallel.warming cold.functions limit).value (c := cold.calculus)
    (fun _ _ => rfl) rfl henter e (fun _ _ => trivial) ⟨rfl, hroom⟩
    (show bindings.Agree _ bindings from fun _ _ => rfl) cold.bodies warm.bodies hcold hwarm hextends hcut
  simp only [evaluateWithin, hevaluation]
  exact ⟨hvalue.1, hvalue.2.1⟩

theorem outcome_eq (h : engine.Coherent settings functions) (limit : Room) (bindings : Bindings)
    (e : Expr) : outcome engine.settings engine.functions limit bindings e =
      outcome settings functions limit bindings e := by
  rw [h.settings_eq, h.functions_eq]

/-! ### Questions -/

theorem Coherent.evaluateTree (h : engine.Coherent settings functions) (e : Expr)
    (bindings : Bindings) :
    (engine.evaluateTree e bindings).2.Coherent settings functions ∧
      engine.bodies.Extends (engine.evaluateTree e bindings).2.bodies ∧
      (isCutOff (engine.evaluateTree e bindings).1 = false →
        (engine.evaluateTree e bindings).1 = outcome settings functions Room.ofBodies bindings e) := by
  obtain ⟨hgrown, hafter, hends⟩ := evaluation_settles Room.usual (h.functions_eq ▸ h.bodies)
    Room.readsIn_usual e bindings
  rw [outcome_eq h] at hends
  rw [h.functions_eq] at hafter
  refine ⟨⟨h.settings_eq, h.functions_eq, h.texts, hafter⟩, hgrown, fun huncut => ?_⟩
  refine hends.resolve_right fun ⟨_, hcut⟩ => ?_
  cases huncut.symm.trans hcut

/-- The answer of an engine to a question is that with all bodies at hand, unless nesting cuts it off;
the engine forgets no body. -/
theorem Coherent.reply (h : engine.Coherent settings functions) (question : Question) :
    (engine.reply question).2.Coherent settings functions ∧
      engine.bodies.Extends (engine.reply question).2.bodies ∧
      (engine.cutsOff question = false →
        (engine.reply question).1 = question.outcome settings functions) := by
  cases question with
  | tree e bindings => exact h.evaluateTree e bindings
  | text source bindings =>
    obtain ⟨hread, hcoherent, hbodies⟩ := h.compile source
    rw [Engine.reply, Engine.evaluate, cutsOff, Question.outcome, ← hread]
    generalize engine.compile source = found at hcoherent hbodies
    rcases found with ⟨e | e, engine'⟩
    · exact ⟨hcoherent, hbodies ▸ .refl _, fun _ => rfl⟩
    · rw [← show engine'.bodies = engine.bodies from hbodies]
      exact hcoherent.evaluateTree e bindings

theorem Coherent.evaluateTree_warm (hcold : cold.Coherent settings functions)
    (hwarm : warm.Coherent settings functions) (hextends : cold.bodies.Extends warm.bodies) {e : Expr}
    {bindings : Bindings} (hcut : isCutOff (cold.evaluateTree e bindings).1 = false) :
    isCutOff (warm.evaluateTree e bindings).1 = false ∧
      (cold.evaluateTree e bindings).2.bodies.Extends (warm.evaluateTree e bindings).2.bodies := by
  have hfunctions := hwarm.functions_eq.trans hcold.functions_eq.symm
  obtain ⟨hsame, hmore⟩ := evaluation_warm (hwarm.settings_eq.trans hcold.settings_eq.symm) hfunctions
    (hcold.functions_eq ▸ hcold.bodies) (hcold.functions_eq ▸ hwarm.bodies) hextends Room.readsIn_usual
    hcut
  exact ⟨(congrArg isCutOff hsame).trans hcut, hmore⟩

/-- What nesting does not cut off it does not cut off on an engine that remembers more. -/
theorem Coherent.reply_warm (hcold : cold.Coherent settings functions)
    (hwarm : warm.Coherent settings functions) (hextends : cold.bodies.Extends warm.bodies)
    {question : Question} (hcut : cold.cutsOff question = false) :
    warm.cutsOff question = false ∧
      (cold.reply question).2.bodies.Extends (warm.reply question).2.bodies := by
  cases question with
  | tree e bindings => exact hcold.evaluateTree_warm hwarm hextends hcut
  | text source bindings =>
    obtain ⟨hread, hcold', hbodies⟩ := hcold.compile source
    obtain ⟨hread', hwarm', hbodies'⟩ := hwarm.compile source
    have hsame := hread'.trans hread.symm
    rw [cutsOff] at hcut ⊢
    rw [Engine.reply, Engine.evaluate, Engine.reply, Engine.evaluate]
    generalize cold.compile source = found at *
    generalize warm.compile source = found' at *
    rcases found with ⟨e | e, engine⟩
    all_goals
      rcases found' with ⟨_, engine'⟩
      obtain rfl := hsame
      dsimp only at hbodies hbodies'
      rw [← hbodies, ← hbodies'] at hextends
    · exact ⟨rfl, hextends⟩
    · exact hcold'.evaluateTree_warm hwarm' hextends hcut

/-- The answer that nesting does not cut off is that of every engine that remembers more. -/
theorem Coherent.reply_eq (hcold : cold.Coherent settings functions)
    (hwarm : warm.Coherent settings functions) (hextends : cold.bodies.Extends warm.bodies)
    {question : Question} (hcut : cold.cutsOff question = false) :
    (warm.reply question).1 = (cold.reply question).1 := by
  have hwarmer := (hcold.reply_warm hwarm hextends hcut).1
  exact ((hwarm.reply question).2.2 hwarmer).trans ((hcold.reply question).2.2 hcut).symm

/-- A value is not cut off. -/
theorem cutsOff_of_reply_ok {question : Question} {v : Float}
    (h : (engine.reply question).1 = .ok v) : engine.cutsOff question = false := by
  cases question with
  | tree e bindings => exact congrArg isCutOff h
  | text source bindings =>
    rw [Engine.reply, Engine.evaluate] at h
    rw [cutsOff]
    generalize engine.compile source = found at h
    rcases found with ⟨e | e, engine'⟩
    · rfl
    · exact congrArg isCutOff h

theorem Reachable.coherent (h : Reachable settings functions engine) :
    engine.Coherent settings functions := by
  induction h with
  | fresh => exact coherent_fresh settings functions
  | compile source _ ih => exact (ih.compile source).2.1
  | reply question _ ih => exact (ih.reply question).1

end Engine
end GraphCalc
