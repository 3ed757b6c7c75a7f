import GraphCalc.Proofs.Eval.Faults
import GraphCalc.Proofs.Eval.Inquiry
import GraphCalc.Proofs.Eval.WellFormed

/-! # The depth of calls

The body of a user function has one call fewer left than the call, so every evaluation ends however the
functions call each other, and the limit on the depth of calls shows by its own fault only. Main notions
and statements:

* `Calculus.CanFault`, `Calculus.faults_outcome`: the faults that an evaluation can end in;
* `Calculus.enterRecording?`: user functions entered with a record of the calls that are open;
* `Calculus.enterRecording?_eq`: bodies that would stand under more calls than the limit are not asked
  for;
* `evaluateWithin_none`: with no limit of room, what an engine remembers does not matter;
* `deeper_calls_keep_outcome`: all this on engines, whatever they were asked before.
-/

namespace GraphCalc
set_option autoImplicit false

/-! ## How an evaluation can end -/

/-- The faults that an evaluation can end in where no nesting is too deep, whatever the tree and the
bindings are. The table and the count of parts say which of them can occur at all. -/
def Calculus.CanFault (c : Calculus) (limit : Room) : EvalError → Prop
  | .callDepth name => c.functions.defines name = true
  | .unreadable e =>
    ∃ name d, c.functions.find? name = some d ∧ c.functions.readWithin limit d.body = .error e
  | .grid .noIntervals => Quadrature.evenCount c.simpsonIntervals = 0
  | .grid .tooManyIntervals =>
    (Float.ofInt (Quadrature.evenCount c.simpsonIntervals)).isFinite = false
  | .tooDeep => False
  | _ => True

section Parts
variable {allowed : EvalError → Prop}

theorem Faults.valueOf (bindings : Bindings) {name : String} (h : allowed (.unknownVariable name)) :
    Faults allowed (bindings.valueOf name) := by
  unfold Bindings.valueOf
  split
  · exact .ok _
  split
  · exact .ok _
  · exact .error h

end Parts

section Tree
variable {c : Calculus} {limit : Room} {enter? : Option (Entry (Except EvalError))}

/-- A tree has possible faults only, if entering user functions has only such. -/
theorem faults_value (henter : ∀ enter, enter? = some enter → ∀ name d,
      c.functions.find? name = some d → ∀ (bindings : Bindings) (x : Float),
        Faults (c.CanFault limit) (enter d none bindings x))
    (e : Expr) (bindings : Bindings) : Faults (c.CanFault limit) (e.value c enter? none bindings) := by
  induction e using Expr.induction generalizing bindings with
  | number v =>
    rw [Expr.value]
    exact .nested (.ok _)
  | var name =>
    rw [Expr.value]
    exact .nested (.valueOf bindings trivial)
  | signed sign e ih =>
    rw [Expr.value]
    exact .nested ((ih bindings).bind fun _ _ => .ok _)
  | binary operator a b iha ihb =>
    rw [Expr.value]
    refine .nested ((iha bindings).bind fun v _ => ?_)
    exact (ihb bindings).bind fun w _ => .apply (fun _ => trivial) (fun _ _ => trivial) v w
  | call head es ih =>
    rw [Expr.value]
    refine .nested (.nested ?_)
    split
    · rcases es with _ | ⟨e, _ | ⟨a, _ | ⟨b, _ | ⟨d, es⟩⟩⟩⟩
      case cons.cons.cons.nil =>
        refine .nested ((ih a (by simp) bindings).bind fun lower _ => ?_)
        refine (ih b (by simp) bindings).bind fun upper _ => ?_
        refine Faults.bind (Quadrature.faults_integral_or_grid id id (fun x => ?_) lower upper)
          fun area _ => .ok _
        exact .nested ((ih e (by simp) _).sampleOf fun _ _ => id)
      all_goals exact .error trivial
    · cases hfind : c.functions.find? head with
      | some d =>
        rcases es with _ | ⟨e, _ | ⟨e', es⟩⟩
        case cons.nil =>
          cases henter? : enter? with
          | none => exact .error (by simp [Calculus.CanFault, FunctionTable.defines, hfind])
          | some enter =>
            subst henter?
            exact (ih e (by simp) bindings).bind fun x _ => henter enter rfl head d hfind bindings x
        all_goals exact .error trivial
      | none =>
        cases hbuiltin : builtin? head with
        | none => exact .error trivial
        | some builtin =>
          dsimp only
          split
          · exact (faults_values fun e he => ih e he bindings).bind fun _ _ => .ok _
          · exact .error trivial

end Tree

theorem Calculus.faults_enter (c : Calculus) (limit : Room) (calls : ℕ) :
    ∀ enter, c.enter? (c.functions.atHand limit) calls = some enter →
      ∀ name d, c.functions.find? name = some d → ∀ (bindings : Bindings) (x : Float),
        Faults (c.CanFault limit) (enter d none bindings x) := by
  induction calls with
  | zero => rintro enter ⟨⟩
  | succ calls ih =>
    rintro enter ⟨⟩ name d hfind bindings x
    show Faults _ (c.functions.atHand limit d none >>= _)
    rw [FunctionTable.atHand]
    cases hbody : c.functions.readWithin limit d.body with
    | error e => exact .error ⟨name, d, hfind, hbody⟩
    | ok body => exact faults_value ih body _

theorem Calculus.faults_outcome (c : Calculus) (limit : Room) (calls : ℕ) (bindings : Bindings)
    (e : Expr) : Faults (c.CanFault limit) (c.outcome limit calls bindings e) :=
  faults_value (c.faults_enter limit calls) e bindings

/-! ## Open calls -/

section Recording
variable {m : Type → Type} [Monad m] [MonadExceptOf EvalError m]

/-- How user functions are entered with `calls` calls left, where a record is kept of the calls that are
open, the innermost first. How a body is got may depend on the record. -/
def Calculus.enterRecording? (c : Calculus) (fetch : List Definition → Room → m Expr) :
    ℕ → List Definition → Option (Entry m)
  | 0, _ => none
  | calls + 1, opened => some fun d room bindings x => do
    let body ← fetch (d :: opened) room
    body.value c (c.enterRecording? fetch calls (d :: opened)) room ((d.parameter, x) :: bindings)

/-- The record never grows beyond the calls that were left at the start, so it does not matter how bodies
would be got under a longer one. -/
theorem Calculus.enterRecording?_eq (c : Calculus) (fetch : Definition → Room → m Expr)
    {recording : List Definition → Room → m Expr} (limit : ℕ)
    (h : ∀ d opened room, (d :: opened).length ≤ limit → recording (d :: opened) room = fetch d room)
    (calls : ℕ) (opened : List Definition) (hcalls : opened.length + calls ≤ limit) :
    c.enterRecording? recording calls opened = c.enter? fetch calls := by
  induction calls generalizing opened with
  | zero => rfl
  | succ calls ih =>
    rw [Calculus.enterRecording?, Calculus.enter?]
    refine congrArg some ?_
    funext d room bindings x
    have hopened : (d :: opened).length + calls ≤ limit := by
      rw [List.length_cons]
      omega
    rw [h d opened room (Nat.le_trans (Nat.le_add_right _ _) hopened), ih (d :: opened) hopened]

end Recording

/-! ## Deeper limits -/

/-- With no limit of room an evaluation has one outcome, whatever the engine remembers. -/
theorem evaluateWithin_none {settings : Settings} {functions : FunctionTable} {engine : Engine}
    (h : engine.Coherent settings functions) (e : Expr) (bindings : Bindings) :
    (engine.evaluateWithin none e bindings).1 = Engine.outcome settings functions none bindings e := by
  obtain rfl := h.functions_eq
  have hends := (Engine.evaluation_settles none (h.bodies.mono (Room.atMost_none _))
    (Room.atMost_none _) e bindings).2.2
  rw [Engine.outcome_eq h] at hends
  exact hends.resolve_right fun hlimited => hlimited.1 rfl

/-- On an engine that was asked anything before, evaluation without a limit on nesting depends on the
settings, the table, the bindings and the tree only, and it ends: in a value, or in a fault that the
table and the limits make possible, which the lack of a grid is not. No body is asked for, let alone
evaluated, while more calls are open than the limit allows: it might be got there in any other way. With
a deeper limit the outcome is the same, be it a value or a fault, unless it is the fault of the limit. -/
theorem deeper_calls_keep_outcome (settings : Settings) (hparts : 1 ≤ settings.simpsonIntervals)
    (start : FunctionTable) (before : List Engine.Request) (bindings : Bindings) (e : Expr) :
    let engine := (Engine.fresh settings start).after before
    let functions := Engine.lastTable before start
    let outcome := ((Engine.fresh settings functions).evaluateWithin none e bindings).1
    (engine.evaluateWithin none e bindings).1 = outcome ∧
    ((∃ v, outcome = .ok v) ∨ ∃ fault, outcome = .error fault ∧
      (Engine.fresh settings functions).calculus.CanFault none fault ∧ fault ≠ .grid .noIntervals) ∧
    (∀ recording : List Definition → Room → Evaluation Expr,
      (∀ d opened room, ((d :: opened).length : ℤ) ≤ settings.maxCallDepth →
        recording (d :: opened) room = Engine.fetch functions d room) →
      ∀ room, e.value engine.calculus
        (engine.calculus.enterRecording? recording settings.maxCallDepth.toNat []) room bindings =
          engine.evaluation room bindings e) ∧
    ∀ deeper, settings.maxCallDepth ≤ deeper → (∀ name, outcome ≠ .error (.callDepth name)) →
      ((Engine.fresh { settings with maxCallDepth := deeper } functions).evaluateWithin none e
        bindings).1 = outcome := by
  intro engine functions outcome
  have hengine : engine.Coherent settings functions :=
    Engine.coherent_after (Engine.coherent_fresh settings start) before
  have houtcome : outcome = Engine.outcome settings functions none bindings e :=
    evaluateWithin_none (Engine.coherent_fresh settings functions) e bindings
  refine ⟨(evaluateWithin_none hengine e bindings).trans houtcome.symm, ?_, ?_, ?_⟩
  · cases hvalue : outcome with
    | ok v => exact .inl ⟨v, rfl⟩
    | error fault =>
      have hpossible : (Engine.fresh settings functions).calculus.CanFault none fault :=
        Calculus.faults_outcome _ none _ bindings e fault (houtcome.symm.trans hvalue)
      refine .inr ⟨fault, rfl, hpossible, ?_⟩
      rintro rfl
      have hcount : Quadrature.evenCount settings.simpsonIntervals = 0 := hpossible
      rw [Quadrature.evenCount] at hcount
      split at hcount <;> omega
  · intro recording hrecording room
    have hentry := engine.calculus.enterRecording?_eq (Engine.fetch engine.functions)
      settings.maxCallDepth.toNat (fun d opened room hlength => by
        rw [hengine.functions_eq]
        exact hrecording d opened room (by rw [List.length_cons] at hlength ⊢; omega))
      settings.maxCallDepth.toNat [] (by rw [List.length_nil, Nat.zero_add])
    rw [hentry, Engine.evaluation, hengine.settings_eq]
  · intro deeper hdeeper hcalls
    have hlasts := (Engine.fresh settings functions).calculus.outcome_outlasts none
      (Int.toNat_le_toNat hdeeper) bindings e
    rw [evaluateWithin_none (Engine.coherent_fresh _ functions) e bindings, houtcome]
    exact (hlasts.eq fun name hname => hcalls name (houtcome.trans hname)).symm

/-- The table of `g(t) = h(t) + 1` and `h(t) = t * t`. -/
def nestedCalls : FunctionTable := ⟨[⟨"g", "t", "h(t) + 1"⟩, ⟨"h", "t", "t * t"⟩], by decide⟩

/-- Gets bodies with zero in their place wherever more than two calls would be open. -/
def fetchUnderTwo (functions : FunctionTable) : List Definition → Room → Evaluation Expr
  | [], _ => pure (.number 0.0)
  | d :: outer, room => if outer.length < 2 then Engine.fetch functions d room else pure (.number 0.0)

/-- A call of `g` opens two calls. A limit of two lets them, so a limit of five changes nothing, and no body
is asked for under three calls; a limit of one does not. -/
theorem two_calls_within_limit :
    let settings := { Settings.default with maxCallDepth := 2 }
    let engine := Engine.fresh settings nestedCalls
    let e := Expr.call "g" [.number 3.0]
    let outcome (settings : Settings) := ((Engine.fresh settings nestedCalls).evaluateWithin none e []).1
    1 ≤ settings.simpsonIntervals ∧ outcome settings = .ok 10.0 ∧
      e.value engine.calculus
        (engine.calculus.enterRecording? (fetchUnderTwo nestedCalls) 2 []) none [] =
          engine.evaluation none [] e ∧
      outcome { settings with maxCallDepth := 5 } = outcome settings ∧
      outcome { settings with maxCallDepth := 1 } = .error (.callDepth "h") := by
  intro settings engine e outcome
  have hvalue : outcome settings = .ok 10.0 := by decide +kernel
  obtain ⟨-, -, hbodies, hdeeper⟩ := deeper_calls_keep_outcome settings (by decide) nestedCalls [] [] e
  refine ⟨by decide, hvalue, hbodies _ ?_ none, hdeeper 5 (by decide) ?_, by decide +kernel⟩
  · intro d outer room hlength
    have hcount : ((d :: outer).length : ℤ) ≤ 2 := hlength
    rw [List.length_cons] at hcount
    exact if_pos (by omega)
  · intro name hname
    cases hvalue.symm.trans hname

end GraphCalc
